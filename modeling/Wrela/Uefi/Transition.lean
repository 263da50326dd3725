import Wrela.Traced
import Wrela.X86.Memory

/-!
# From firmware to owned hardware

The memory map is asked for until its buffer is large enough, and firmware is
left with the key of that map; an exit refused because of the key starts over.
What firmware answers is arbitrary. The trace of a run holds the calls with
their answers and the steps that take the machine over.
-/

set_option autoImplicit false

namespace Wrela.Uefi
open X86 List

/-- The fields of `UefiMemoryMapResult` that decide what happens, as the call
leaves them, also when it fails. -/
structure MapResult where
  status : Word
  requiredSize : Word
  key : Word

structure Firmware where
  maps : ℕ → MapResult
  exits : ℕ → Word

inductive Event where
  | getMemoryMap (result : MapResult)
  | exitBootServices (mapKey status : Word)
  | buildIdentityPaging
  | buildOwnedGdt
  | buildInterruptIdt
  | installNvmeInterruptIdtGates
  | activateOwnedHardware

def success : Word := 0
def invalidParameter : Word := 0x8000000000000002
def bufferTooSmall : Word := 0x8000000000000005

inductive Stop where
  | failed (code : Word)
  | exhausted

structure DelegatedMemory where
  arenaBase : Word
  arenaLength : Word
  nextOffset : Word

structure DelegatedMutableBytes where
  address : Word
  length : Word

structure State where
  delegatedMemory : DelegatedMemory
  activeBuffer : DelegatedMutableBytes
  mapResult : MapResult
  exitStatus : Word
  mapCalls : ℕ
  exitCalls : ℕ

abbrev Run (α : Type) := Traced Event Stop α

def DelegatedMemory.allocate (self : DelegatedMemory) (length : Word) :
    Run (DelegatedMutableBytes × DelegatedMemory) :=
  if self.arenaLength.slt self.nextOffset then .stop (.failed 0xAC020002)
  else if (self.arenaLength-self.nextOffset).slt length then .stop (.failed 0xAC020002)
  else .pure (⟨self.arenaBase+self.nextOffset,length⟩,
    {self with nextOffset := self.nextOffset+length})

section
variable (fw : Firmware) (fuel : ℕ)

def getMemoryMap (s : State) : Run State :=
  .record [.getMemoryMap (fw.maps s.mapCalls)]
    {s with mapResult := fw.maps s.mapCalls, mapCalls := s.mapCalls+1}

/-- The final map is that of the last result. -/
def exitBootServices (s : State) : Run State :=
  .record [.exitBootServices s.mapResult.key (fw.exits s.exitCalls)]
    {s with exitStatus := fw.exits s.exitCalls, exitCalls := s.exitCalls+1}

/-- `while map_result.status.value == 0x8000000000000005`. -/
def growLoop : State → Run State :=
  .iterate .exhausted (fun s =>
    if s.mapResult.status = bufferTooSmall then
      (s.delegatedMemory.allocate (s.mapResult.requiredSize+4096)).bind fun p =>
        (getMemoryMap fw {s with activeBuffer := p.1, delegatedMemory := p.2}).bind fun s =>
          .pure (.inr s)
    else .pure (.inl s)) fuel

/-- `while exit_status.value == 0x8000000000000002`. -/
def exitLoop : State → Run State :=
  .iterate .exhausted (fun s =>
    if s.exitStatus = invalidParameter then
      (getMemoryMap fw s).bind fun s => (growLoop fw fuel s).bind fun s =>
        (exitBootServices fw s).bind fun s => .pure (.inr s)
    else .pure (.inl s)) fuel

/-- The calls of `exit_to_owned_hardware`; its variables are set before they are
used. -/
def leaveFirmware (memory : DelegatedMemory) : Run State :=
  (memory.allocate 16384).bind fun p =>
    (getMemoryMap fw ⟨p.2,p.1,⟨0,0,0⟩,0,0,0⟩).bind fun s =>
      (growLoop fw fuel s).bind fun s => (exitBootServices fw s).bind fun s => exitLoop fw fuel s

def takeOver : List Event :=
  [.buildIdentityPaging, .buildOwnedGdt, .buildInterruptIdt, .installNvmeInterruptIdtGates,
    .activateOwnedHardware]

def exitToOwnedHardware (memory : DelegatedMemory) : Run State :=
  (leaveFirmware fw fuel memory).bind fun s => .record takeOver s

end

/-! ### When ownership may be taken -/

/-- The key of the latest map that was returned successfully, and whether an exit
call made with such a key has succeeded. -/
structure Watch where
  latest : Option Word
  released : Bool

variable (w : Watch)

def Watch.see : Event → Watch
  | .getMemoryMap r => if r.status = success then {w with latest := some r.key} else w
  | .exitBootServices key status =>
    {w with released := w.released || decide (status = success ∧ w.latest = some key)}
  | _ => w

def Event.TakesOver : Event → Prop
  | .getMemoryMap _ => False
  | .exitBootServices _ _ => False
  | _ => True

def Watch.Safe : Watch → List Event → Prop
  | _, [] => True
  | w, e::es => (e.TakesOver → w.released) ∧ (w.see e).Safe es

variable (es : List Event)

def Watch.after : Watch := es.foldl Watch.see w

/-- Firmware that answers with the statuses that the loops name, and success. -/
structure Firmware.Named (fw : Firmware) : Prop where
  maps : ∀ n, (fw.maps n).status = success ∨ (fw.maps n).status = bufferTooSmall
  exits : ∀ n, fw.exits n = success ∨ fw.exits n = invalidParameter

/-- The key of the latest of the first `n` answers that is a success. -/
def Firmware.latestKey (fw : Firmware) : ℕ → Option Word
  | 0 => none
  | n+1 => if (fw.maps n).status = success then some (fw.maps n).key else fw.latestKey n

def Watch.start : Watch := ⟨none,false⟩

theorem Watch.safe_append (fs : List Event) :
    w.Safe (es++fs) ↔ w.Safe es ∧ (w.after es).Safe fs := by
  induction es generalizing w with
  | nil => simp [Watch.Safe, Watch.after]
  | cons e es ih =>
    simp only [cons_append, Watch.Safe, ih, and_assoc]
    rfl

theorem Watch.after_concat (e : Event) : w.after (es++[e]) = (w.after es).see e := by
  simp [Watch.after]

def CallsOnly : Prop := ∀ e ∈ es, ¬ e.TakesOver

theorem CallsOnly.concat {es : List Event} (h : CallsOnly es) {e : Event} (he : ¬ e.TakesOver) :
    CallsOnly (es++[e]) := by
  intro f hf
  rcases mem_append.mp hf with hf | hf
  · exact h f hf
  · rw [mem_singleton.mp hf]
    exact he

theorem Watch.safe_of_calls {es : List Event} (h : CallsOnly es) : w.Safe es := by
  induction es generalizing w with
  | nil => trivial
  | cons e es ih =>
    exact ⟨fun he => absurd he (h e (by simp)),ih _ fun f hf => h f (by simp [hf])⟩

theorem Watch.safe_takeOver : w.Safe takeOver ↔ w.released := by
  simp [Watch.Safe, takeOver, Event.TakesOver, Watch.see]

/-! ### What holds between the calls -/

section
variable (fw : Firmware)

/-- Before a call for the map: no exit has succeeded so far. -/
structure Calling (es : List Event) (s : State) : Prop where
  calls : CallsOnly es
  watch : Watch.start.after es = ⟨fw.latestKey s.mapCalls,false⟩

structure Mapped (es : List Event) (s : State) : Prop extends Calling fw es s where
  result : s.mapResult = fw.maps (s.mapCalls-1)
  called : 0 < s.mapCalls

/-- The map has fitted in its buffer, as far as the status says. -/
structure Fitted (es : List Event) (s : State) : Prop extends Mapped fw es s where
  fitted : s.mapResult.status ≠ bufferTooSmall

/-- An exit call has been made with the key of the last answer. -/
structure Exited (es : List Event) (s : State) : Prop where
  calls : CallsOnly es
  watch : Watch.start.after es = ⟨fw.latestKey s.mapCalls,
    decide (s.exitStatus = success ∧ fw.latestKey s.mapCalls = some s.mapResult.key)⟩
  result : s.mapResult = fw.maps (s.mapCalls-1)
  called : 0 < s.mapCalls
  fitted : s.mapResult.status ≠ bufferTooSmall
  status : s.exitStatus = fw.exits (s.exitCalls-1)

variable {fw} {es : List Event} {s : State}

theorem leads_getMemoryMap (h : Calling fw es s) :
    Traced.Leads CallsOnly (Mapped fw) es (getMemoryMap fw s) := by
  refine .record ⟨⟨h.calls.concat id,?_⟩,rfl,Nat.succ_pos _⟩
  rw [Watch.after_concat, h.watch]
  simp only [Watch.see, Firmware.latestKey]
  split <;> rfl

theorem leads_exitBootServices (h : Fitted fw es s) :
    Traced.Leads CallsOnly (Exited fw) es (exitBootServices fw s) := by
  refine .record ⟨h.calls.concat id,?_,h.result,h.called,h.fitted,rfl⟩
  rw [Watch.after_concat, h.watch]
  simp [Watch.see]

theorem leads_allocate (hc : CallsOnly es) (memory : DelegatedMemory) (length : Word) :
    Traced.Leads CallsOnly (fun fs _ => fs = es) es (memory.allocate length) := by
  unfold DelegatedMemory.allocate
  split
  · exact .stop hc
  · split
    · exact .stop hc
    · exact .pure rfl

theorem leads_growLoop (fuel : ℕ) (h : Mapped fw es s) :
    Traced.Leads CallsOnly (Fitted fw) es (growLoop fw fuel s) := by
  refine Traced.Leads.iterate _ (fun fs t ht => ht.calls) (fun fs t ht => ?_) fuel h
  split
  · refine (leads_allocate ht.calls _ _).bind ?_
    rintro gs p rfl
    have hc : Calling fw gs {t with activeBuffer := p.1, delegatedMemory := p.2} :=
      ⟨ht.calls,ht.watch⟩
    exact (leads_getMemoryMap hc).bind fun gs u hu => .pure hu
  · next hfit => exact .pure ⟨ht,hfit⟩

theorem leads_exitLoop (fuel : ℕ) (h : Exited fw es s) :
    Traced.Leads CallsOnly (fun fs t => Exited fw fs t ∧ t.exitStatus ≠ invalidParameter) es
      (exitLoop fw fuel s) := by
  refine Traced.Leads.iterate _ (fun fs t ht => ht.calls) (fun fs t ht => ?_) fuel h
  split
  · next hinvalid =>
    -- an exit that is refused because of its key is no success
    have hc : Calling fw fs t := by
      refine ⟨ht.calls,?_⟩
      rw [ht.watch, hinvalid]
      rfl
    refine (leads_getMemoryMap hc).bind fun gs u hu => ?_
    refine (leads_growLoop fuel hu).bind fun gs u hu => ?_
    exact (leads_exitBootServices hu).bind fun gs u hu => .pure hu
  · next hvalid => exact .pure ⟨ht,hvalid⟩

theorem leads_leaveFirmware (fw : Firmware) (fuel : ℕ) (memory : DelegatedMemory) :
    Traced.Leads CallsOnly (fun fs t => Exited fw fs t ∧ t.exitStatus ≠ invalidParameter) []
      (leaveFirmware fw fuel memory) := by
  have hnone : CallsOnly [] := by simp [CallsOnly]
  refine (leads_allocate hnone memory _).bind ?_
  rintro fs p rfl
  refine (leads_getMemoryMap ⟨hnone,rfl⟩).bind fun gs u hu => ?_
  refine (leads_growLoop fuel hu).bind fun gs u hu => ?_
  exact (leads_exitBootServices hu).bind fun gs u hu => leads_exitLoop fuel hu

end

theorem Exited.released {fw : Firmware} {es : List Event} {s : State} (h : Exited fw es s)
    (hfw : fw.Named) (hexit : s.exitStatus ≠ invalidParameter) :
    (Watch.start.after es).released := by
  obtain ⟨n,hn⟩ : ∃ n, s.mapCalls = n+1 := Nat.exists_eq_succ_of_ne_zero (Nat.ne_of_gt h.called)
  have hresult : s.mapResult = fw.maps n := by rw [h.result, hn, Nat.add_sub_cancel]
  have hmap : (fw.maps n).status = success :=
    (hfw.maps n).resolve_right fun he => h.fitted (hresult ▸ he)
  have hstatus : s.exitStatus = success := by
    rw [h.status] at hexit ⊢
    exact (hfw.exits _).resolve_right hexit
  rw [h.watch, hn, Firmware.latestKey, if_pos hmap, hresult]
  exact decide_eq_true ⟨hstatus,rfl⟩

/-- If firmware answers each call for the map with success or that the buffer is too
small, and each exit call with success or that the key is invalid, ownership is taken
only after it let go. -/
theorem ownership_after_exit (fw : Firmware) (hfw : fw.Named) (fuel : ℕ)
    (memory : DelegatedMemory) :
    Watch.start.Safe (exitToOwnedHardware fw fuel memory).trace := by
  have hleads := leads_leaveFirmware fw fuel memory
  unfold Traced.Leads at hleads
  unfold exitToOwnedHardware Traced.bind
  cases hout : (leaveFirmware fw fuel memory).outcome with
  | error e =>
    rw [hout] at hleads
    exact Watch.safe_of_calls _ hleads
  | ok s =>
    rw [hout, nil_append] at hleads
    obtain ⟨hexited,hexit⟩ := hleads
    refine (Watch.safe_append _ _ _).mpr ⟨Watch.safe_of_calls _ hexited.calls,?_⟩
    exact (Watch.safe_takeOver _).mpr (hexited.released hfw hexit)

/-- The first buffer is too small, and the first exit comes too late for its key. -/
def busyFirmware : Firmware where
  maps n := if n = 0 then ⟨bufferTooSmall,0x8000,0⟩ else ⟨success,0x8000,BitVec.ofNat 64 n⟩
  exits n := if n = 0 then invalidParameter else success

theorem ownership_after_exit_busy :
    (exitToOwnedHardware busyFirmware 3 ⟨0x100000,0x20000,0⟩).trace.length = 10 ∧
    Watch.start.Safe (exitToOwnedHardware busyFirmware 3 ⟨0x100000,0x20000,0⟩).trace := by
  have hnamed : busyFirmware.Named := by
    refine ⟨fun n => ?_,fun n => ?_⟩ <;> cases n with
    | zero => exact .inr rfl
    | succ n => exact .inl rfl
  exact ⟨rfl,ownership_after_exit busyFirmware hnamed 3 _⟩

/-- An exit that fails for another reason than its key is taken for a success. -/
theorem ownership_without_exit :
    ¬ Watch.start.Safe (exitToOwnedHardware
      ⟨fun _ => ⟨success,0,7⟩,fun _ => 0x8000000000000003⟩ 1 ⟨0x100000,0x10000,0⟩).trace := by
  intro h
  exact absurd (h.2.2.1 trivial) (by decide)

end Wrela.Uefi
