import Wrela.RoundRobin
import Wrela.Transition
import Wrela.X86.Memory

/-!
# Core links

One producer and one consumer share a ring of slots and three control words: the
head, the tail and the number of occupied slots. Each call is a sequence of
single accesses, in the order of the source, and the accesses of the two sides
interleave in any way. The count is read at the start of a call and stored, one
more or one less, at its end, by both sides.
-/

set_option autoImplicit false

namespace Wrela.CoreLink
open Transition X86 List BitVec Option

variable {α : Type}

structure Shared (α : Type) where
  head : Word
  tail : Word
  occupied : Word
  slots : ℕ → α

inductive Send (α : Type) where
  | idle
  | loadHead (value : α)
  | loadTail (value : α) (observedHead : Word)
  | loadOccupied (value : α) (observedHead observedTail : Word)
  | storeSlot (value : α) (observedHead observedTail occupied : Word)
  | storeTail (value : α) (observedHead observedTail occupied : Word)
  | storeOccupied (value : α) (observedHead nextTail occupied : Word)

inductive Next (α : Type) where
  | idle
  | loadOccupied
  | loadHead (occupied : Word)
  | loadSlot (occupied observedHead : Word)
  | storeHead (occupied observedHead : Word) (value : α)
  | storeOccupied (occupied nextHead : Word) (value : α)

def Send.count : Send α → Option Word
  | .storeOccupied _ _ _ occupied => some occupied
  | _ => none

def Next.count : Next α → Option Word
  | .storeOccupied occupied _ _ => some occupied
  | _ => none

structure Producer where
  head : Word
  tail : Word
  credits : Word

/-- The accepted and the received values are the history of results of the calls
that have returned. -/
structure State (α : Type) where
  shared : Shared α
  sending : Send α
  receiving : Next α
  producer : Producer
  consumerHead : Word
  accepted : List α
  received : List α

variable (capacity : Word)

def wrapNext (index : Word) : Word :=
  if index+1 = capacity then 0 else index+1

inductive Event (α : Type) where
  | send (value : α)
  | produce
  | next
  | consume

variable (s : State α)

namespace State

def produce : Option (State α) :=
  match s.sending with
  | .idle => none
  | .loadHead v => some {s with sending := .loadTail v s.shared.head}
  | .loadTail v head => some {s with sending := .loadOccupied v head s.shared.tail}
  | .loadOccupied v head tail =>
    if capacity ≤ s.shared.occupied then some {s with sending := .idle}
    else some {s with sending := .storeSlot v head tail s.shared.occupied}
  | .storeSlot v head tail occupied => some {s with
      shared.slots := Function.update s.shared.slots tail.toNat v
      sending := .storeTail v head tail occupied}
  | .storeTail v head tail occupied => some {s with
      shared.tail := wrapNext capacity tail
      sending := .storeOccupied v head (wrapNext capacity tail) occupied}
  | .storeOccupied v head tail occupied => some {s with
      shared.occupied := occupied+1
      sending := .idle
      producer := ⟨head,tail,capacity-occupied-1⟩
      accepted := s.accepted++[v]}

def consume : Option (State α) :=
  match s.receiving with
  | .idle => none
  | .loadOccupied =>
    if s.shared.occupied = 0 then some {s with receiving := .idle}
    else some {s with receiving := .loadHead s.shared.occupied}
  | .loadHead occupied => some {s with receiving := .loadSlot occupied s.shared.head}
  | .loadSlot occupied head => some {s with
      receiving := .storeHead occupied head (s.shared.slots head.toNat)}
  | .storeHead occupied head v => some {s with
      shared.head := wrapNext capacity head
      receiving := .storeOccupied occupied (wrapNext capacity head) v}
  | .storeOccupied occupied head v => some {s with
      shared.occupied := occupied-1
      receiving := .idle
      consumerHead := head
      received := s.received++[v]}

/-- A call begins when the one before has returned. With no capacity it returns
without an access. -/
def step : Event α → Option (State α)
  | .send v => match s.sending with
    | .idle => some (if capacity = 0 then s else {s with sending := .loadHead v})
    | _ => none
  | .produce => s.produce capacity
  | .next => match s.receiving with
    | .idle => some (if capacity = 0 then s else {s with receiving := .loadOccupied})
    | _ => none
  | .consume => s.consume capacity

def initial (filling : ℕ → α) : State α where
  shared := ⟨0,0,0,filling⟩
  sending := .idle
  receiving := .idle
  producer := ⟨0,0,capacity⟩
  consumerHead := 0
  accepted := []
  received := []

def Quiet : Prop := s.sending = .idle ∧ s.receiving = .idle

/-- Exactly the accepted values are received, in order; the values still to come
are in the slots from the head on, and the stored count is theirs. -/
structure Exact (capacity : Word) (s : State α) : Prop where
  received : s.received <+: s.accepted
  bounded : s.shared.occupied ≤ capacity
  counted : s.Quiet → s.received.length+s.shared.occupied.toNat = s.accepted.length
  kept : s.Quiet → ∀ i < s.shared.occupied.toNat,
    s.accepted[s.received.length+i]? = some (s.shared.slots ((s.shared.head.toNat+i)%capacity.toNat))

/-- A side that stores the count stores it over the value it has read. -/
def Unraced : Event α → Prop
  | .produce => ∀ read ∈ s.sending.count, s.shared.occupied = read
  | .consume => ∀ read ∈ s.receiving.count, s.shared.occupied = read
  | _ => True

instance (count : Option Word) (occupied : Word) : Decidable (∀ read ∈ count, occupied = read) :=
  match count with
  | none => .isTrue nofun
  | some read => decidable_of_iff (occupied = read) (by simp)

instance (s : State α) (e : Event α) : Decidable (s.Unraced e) :=
  match e with
  | .produce => inferInstanceAs (Decidable (∀ read ∈ s.sending.count, s.shared.occupied = read))
  | .consume => inferInstanceAs (Decidable (∀ read ∈ s.receiving.count, s.shared.occupied = read))
  | .send _ => inferInstanceAs (Decidable True)
  | .next => inferInstanceAs (Decidable True)

end State

/-! ### The invariant -/

theorem concat_received {xs ys : List α} {v : α} (h : xs <+: ys) (hv : ys[xs.length]? = some v) :
    xs++[v] <+: ys := by
  obtain ⟨rest,rfl⟩ := h
  cases rest with
  | nil => simp at hv
  | cons x rest =>
    obtain rfl : x = v := by simpa using hv
    exact ⟨rest,by simp⟩

section
variable (c n r : ℕ)

def Send.Holds (tail : Word) (slots : ℕ → α) : Send α → Prop
  | .idle => tail.toNat = n%c
  | .loadHead _ => 0 < c ∧ tail.toNat = n%c
  | .loadTail _ _ => 0 < c ∧ tail.toNat = n%c
  | .loadOccupied _ _ t => 0 < c ∧ tail.toNat = n%c ∧ t.toNat = n%c
  | .storeSlot _ _ t _ => 0 < c ∧ tail.toNat = n%c ∧ t.toNat = n%c ∧ n < r+c
  | .storeTail v _ t _ => 0 < c ∧ tail.toNat = n%c ∧ t.toNat = n%c ∧ n < r+c ∧ slots (n%c) = v
  | .storeOccupied v _ _ _ => 0 < c ∧ tail.toNat = (n+1)%c ∧ n < r+c ∧ slots (n%c) = v

def Next.Holds (accepted : List α) (head : Word) : Next α → Prop
  | .idle => head.toNat = r%c
  | .loadOccupied => 0 < c ∧ head.toNat = r%c
  | .loadHead _ => 0 < c ∧ head.toNat = r%c ∧ r < accepted.length
  | .loadSlot _ h => 0 < c ∧ head.toNat = r%c ∧ h.toNat = r%c ∧ r < accepted.length
  | .storeHead _ h v => 0 < c ∧ head.toNat = r%c ∧ h.toNat = r%c ∧ accepted[r]? = some v
  | .storeOccupied _ _ v => 0 < c ∧ head.toNat = (r+1)%c ∧ accepted[r]? = some v

variable {c n r}

theorem Send.Holds.receive {tail : Word} {slots : ℕ → α} {pc : Send α}
    (h : pc.Holds c n r tail slots) : pc.Holds c n (r+1) tail slots := by
  cases pc <;> simp only [Send.Holds] at h ⊢ <;> grind

theorem Next.Holds.accept {accepted : List α} {head : Word} {pc : Next α}
    (h : pc.Holds c r accepted head) (v : α) : pc.Holds c r (accepted++[v]) head := by
  cases pc <;> simp only [Next.Holds, length_append] at h ⊢ <;> grind

end

structure State.Inv (capacity : Word) (s : State α) : Prop where
  received : s.received <+: s.accepted
  room : s.accepted.length ≤ s.received.length+capacity.toNat
  counted : s.received.length+s.shared.occupied.toNat = s.accepted.length
  kept : ∀ i v, s.received.length ≤ i → s.accepted[i]? = some v →
    s.shared.slots (i%capacity.toNat) = v
  sending : s.sending.Holds capacity.toNat s.accepted.length s.received.length
    s.shared.tail s.shared.slots
  receiving : s.receiving.Holds capacity.toNat s.received.length s.accepted s.shared.head

namespace State.Inv
variable {capacity : Word} {s t : State α}

theorem initial (capacity : Word) (filling : ℕ → α) : (State.initial capacity filling).Inv capacity where
  received := prefix_rfl
  room := Nat.zero_le _
  counted := rfl
  kept := by simp [State.initial]
  sending := by simp [State.initial, Send.Holds]
  receiving := by simp [State.initial, Next.Holds]

section
variable (h : s.Inv capacity)
include h

theorem withSending {pc : Send α}
    (hpc : pc.Holds capacity.toNat s.accepted.length s.received.length s.shared.tail s.shared.slots) :
    ({s with sending := pc} : State α).Inv capacity :=
  ⟨h.received,h.room,h.counted,h.kept,hpc,h.receiving⟩

theorem withReceiving {pc : Next α}
    (hpc : pc.Holds capacity.toNat s.received.length s.accepted s.shared.head) :
    ({s with receiving := pc} : State α).Inv capacity :=
  ⟨h.received,h.room,h.counted,h.kept,h.sending,hpc⟩

theorem produce (hu : s.Unraced .produce)
    (hstep : s.produce capacity = some t) : t.Inv capacity := by
  have hs := h.sending
  rw [State.produce] at hstep
  generalize hpc : s.sending = pc at hs hstep
  cases pc with
  | idle => cases hstep
  | loadHead v =>
    cases hstep
    exact h.withSending hs
  | loadTail v head =>
    cases hstep
    exact h.withSending ⟨hs.1,hs.2,hs.2⟩
  | loadOccupied v head tail =>
    simp only at hstep
    split at hstep
    · exact (some.inj hstep) ▸ h.withSending hs.2.1
    · next hlt =>
      have hroom : s.accepted.length < s.received.length+capacity.toNat := by
        have := h.counted
        rw [le_def] at hlt
        omega
      exact (some.inj hstep) ▸ h.withSending ⟨hs.1,hs.2.1,hs.2.2,hroom⟩
  | storeSlot v head tail occupied =>
    obtain ⟨hc,htail,ht,hroom⟩ := hs
    cases hstep
    refine ⟨h.received,h.room,h.counted,?_,?_,h.receiving⟩
    · -- the slot written is that of the value to come
      intro i w hi hw
      have hle : s.received.length ≤ i := hi
      have hlt : i < s.accepted.length := (List.getElem?_eq_some_iff.mp hw).1
      have hne : i%capacity.toNat ≠ tail.toNat := by
        rw [ht]
        exact RingIndex.slot_ne hlt (by omega)
      exact (Function.update_of_ne hne v s.shared.slots).trans (h.kept i w hi hw)
    · exact ⟨hc,htail,ht,hroom,by simp [ht]⟩
  | storeTail v head tail occupied =>
    obtain ⟨hc,htail,ht,hroom,hv⟩ := hs
    cases hstep
    exact ⟨h.received,h.room,h.counted,h.kept,⟨hc,RingIndex.next_toNat hc ht,hroom,hv⟩,h.receiving⟩
  | storeOccupied v head tail occupied =>
    obtain ⟨hc,htail,hroom,hv⟩ := hs
    have hread : s.shared.occupied = occupied := hu occupied (by simp [hpc, Send.count])
    have hcounted := hread ▸ h.counted
    cases hstep
    have hsucc : (occupied+1).toNat = occupied.toNat+1 :=
      RingIndex.succ_toNat (show occupied.toNat < capacity.toNat by omega)
    refine ⟨h.received.trans (prefix_append _ _),?_,?_,?_,?_,h.receiving.accept v⟩
    · simp only [length_append, length_singleton]
      omega
    · simp only [length_append, length_singleton, hsucc]
      omega
    · intro i w hi hw
      by_cases hlt : i < s.accepted.length
      · rw [getElem?_append_left hlt] at hw
        exact h.kept i w hi hw
      · -- the value that has become accepted
        obtain ⟨rfl,rfl⟩ : i = s.accepted.length ∧ v = w := by
          rw [getElem?_append_right (by omega)] at hw
          grind
        exact hv
    · simpa [Send.Holds] using htail

theorem consume (hu : s.Unraced .consume)
    (hstep : s.consume capacity = some t) : t.Inv capacity := by
  have hs := h.receiving
  rw [State.consume] at hstep
  generalize hpc : s.receiving = pc at hs hstep
  cases pc with
  | idle => cases hstep
  | loadOccupied =>
    simp only at hstep
    split at hstep
    · exact (some.inj hstep) ▸ h.withReceiving hs.2
    · next hne =>
      have hsome : s.received.length < s.accepted.length := by
        have := h.counted
        have : s.shared.occupied.toNat ≠ 0 := fun h0 => hne (eq_of_toNat_eq h0)
        omega
      exact (some.inj hstep) ▸ h.withReceiving ⟨hs.1,hs.2,hsome⟩
  | loadHead occupied =>
    cases hstep
    exact h.withReceiving ⟨hs.1,hs.2.1,hs.2.1,hs.2.2⟩
  | loadSlot occupied head =>
    obtain ⟨hc,hhead,hh,hlt⟩ := hs
    cases hstep
    have hv : s.accepted[s.received.length]? = some (s.shared.slots head.toNat) := by
      rw [List.getElem?_eq_getElem hlt, hh, h.kept _ _ le_rfl (List.getElem?_eq_getElem hlt)]
    exact h.withReceiving ⟨hc,hhead,hh,hv⟩
  | storeHead occupied head v =>
    obtain ⟨hc,hhead,hh,hv⟩ := hs
    cases hstep
    exact ⟨h.received,h.room,h.counted,h.kept,h.sending,⟨hc,RingIndex.next_toNat hc hh,hv⟩⟩
  | storeOccupied occupied head v =>
    obtain ⟨hc,hhead,hv⟩ := hs
    have hread : s.shared.occupied = occupied := hu occupied (by simp [hpc, Next.count])
    have hcounted := hread ▸ h.counted
    have hlt := (List.getElem?_eq_some_iff.mp hv).1
    have hroom := h.room
    cases hstep
    have hpred : (occupied-1).toNat+1 = occupied.toNat := by
      have : 0 < occupied.toNat := by omega
      bv_omega
    refine ⟨?_,?_,?_,?_,?_,?_⟩
    · exact concat_received h.received hv
    · simp only [length_append, length_singleton]
      omega
    · simp only [length_append, length_singleton]
      omega
    · intro i w hi hw
      simp only [length_append, length_singleton] at hi
      exact h.kept i w (by omega) hw
    · simpa using h.sending.receive
    · simpa [Next.Holds] using hhead

theorem step {e : Event α} (hu : s.Unraced e)
    (hstep : s.step capacity e = some t) : t.Inv capacity := by
  cases e with
  | send v =>
    have hs := h.sending
    simp only [State.step] at hstep
    split at hstep
    · next hpc =>
      rw [hpc] at hs
      split at hstep
      · exact (some.inj hstep) ▸ h
      · next hc =>
        have hpos : 0 < capacity.toNat := Nat.pos_of_ne_zero fun h0 => hc (eq_of_toNat_eq h0)
        exact (some.inj hstep) ▸ h.withSending ⟨hpos,hs⟩
    · cases hstep
  | produce => exact h.produce hu hstep
  | next =>
    have hs := h.receiving
    simp only [State.step] at hstep
    split at hstep
    · next hpc =>
      rw [hpc] at hs
      split at hstep
      · exact (some.inj hstep) ▸ h
      · next hc =>
        have hpos : 0 < capacity.toNat := Nat.pos_of_ne_zero fun h0 => hc (eq_of_toNat_eq h0)
        exact (some.inj hstep) ▸ h.withReceiving ⟨hpos,hs⟩
    · cases hstep
  | consume => exact h.consume hu hstep

theorem exact : s.Exact capacity where
  received := h.received
  bounded := by
    have := h.room
    have := h.counted
    rw [le_def]
    omega
  counted _ := h.counted
  kept := by
    rintro ⟨-,hidle⟩ i hi
    have hhead := h.receiving
    rw [hidle] at hhead
    have hlt : s.received.length+i < s.accepted.length := by
      have := h.counted
      omega
    have hget := List.getElem?_eq_getElem hlt
    have hslot : (s.shared.head.toNat+i)%capacity.toNat = (s.received.length+i)%capacity.toNat := by
      rw [show s.shared.head.toNat = _ from hhead, Nat.mod_add_mod]
    rw [hget, hslot, h.kept _ _ (by omega) hget]

end

end State.Inv

/-- As long as no side stores the count over a value it has not read, exactly the
accepted values are received, whatever the interleaving. -/
theorem core_link_exact (capacity : Word) (filling : ℕ → α) (s : State α)
    (h : Reachable (· = State.initial capacity filling)
      (Steps (guarded State.Unraced (State.step capacity))) s) : s.Exact capacity := by
  refine State.Inv.exact (Reachable.invariant (P := State.Inv capacity) ?_ ?_ h)
  · rintro s rfl
    exact State.Inv.initial capacity filling
  · rintro s t hs ⟨e,hstep⟩
    obtain ⟨hu,hstep⟩ := guarded_eq_some.mp hstep
    exact hs.step hu hstep

def sends (v : ℕ) : List (Event ℕ) :=
  [.send v, .produce, .produce, .produce, .produce, .produce, .produce]

def receives : List (Event ℕ) :=
  [.next, .consume, .consume, .consume, .consume, .consume]

/-- The link is filled, and the third value wraps around. -/
theorem core_link_exact_wrapped :
    ∃ s, Transition.run (guarded State.Unraced (State.step 2)) (State.initial 2 fun _ => 0)
      (sends 7++sends 8++receives++sends 9++receives++receives) = some s ∧
      s.received = [7, 8, 9] ∧ s.Exact 2 := by
  have hreceived : (Transition.run (guarded State.Unraced (State.step 2))
      (State.initial 2 fun _ => 0) (sends 7++sends 8++receives++sends 9++receives++receives)).map
        State.received = some [7, 8, 9] := rfl
  obtain ⟨s,hr,hs⟩ := Option.map_eq_some_iff.mp hreceived
  exact ⟨s,hr,hs,core_link_exact 2 _ s (Reachable.of_run ⟨_,rfl,.refl⟩ _ hr)⟩

/-- The link after the consumer has taken the first value between the producer's
read and store of the count: it says two values where one is. -/
def miscounted : State ℕ where
  shared := ⟨1,0,2,Function.update (Function.update (fun _ => 0) 0 7) 1 8⟩
  sending := .idle
  receiving := .idle
  producer := ⟨0,0,0⟩
  consumerHead := 1
  accepted := [7, 8]
  received := [7]

theorem run_miscounted : Transition.run (State.step 2) (State.initial 2 fun _ => 0)
    (sends 7++[.send 8, .produce, .produce, .produce]++receives++
      [.produce, .produce, .produce]) = some miscounted := rfl

/-- The first value is received again. -/
theorem core_link_repeats :
    ∃ s, Reachable (· = State.initial (2 : Word) fun _ => 0) (Steps (State.step 2)) s ∧
      s.Quiet ∧ s.accepted = [7, 8] ∧ s.received = [7, 8, 7] := by
  have hmis : Reachable (· = State.initial (2 : Word) fun _ => 0) (Steps (State.step 2))
    miscounted := Reachable.of_run ⟨_,rfl,.refl⟩ _ run_miscounted
  obtain ⟨s,hr,hs⟩ : ∃ s, Transition.run (State.step 2) miscounted (receives++receives) = some s ∧
      s.Quiet ∧ s.accepted = [7, 8] ∧ s.received = [7, 8, 7] := ⟨_,rfl,⟨rfl,rfl⟩,rfl,rfl⟩
  exact ⟨s,Reachable.of_run hmis _ hr,hs⟩

end Wrela.CoreLink
