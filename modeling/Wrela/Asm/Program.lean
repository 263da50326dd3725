import Wrela.Asm.Fidelity
import Mathlib.Data.List.Induction

/-!
# Assembled programs

The bytes that a whole program's output holds for one of its instructions: what
the encoder emitted for it, with the distance of a branch filled in once all
labels are known. Filling in one branch leaves the bytes of every other
instruction alone.
-/

set_option autoImplicit false

namespace Wrela.Asm
open X86 X86.Decode List

/-! ## The first pass -/

variable (instructions : List Instruction)

def assembled : State :=
  instructions.foldl encodeStep ⟨[],[],[],[]⟩

def Adds (st st' : State) (b : List ℕ) (fixups : List BranchFixup) : Prop :=
  st'.out = st.out ++ b ∧ st'.fixups = st.fixups ++ fixups ∧
    ∀ fix ∈ fixups, st.out.length ≤ fix.relPos ∧ fix.relPos+4 ≤ st'.out.length

variable {st : State}

theorem Adds.trans {st' st'' : State} {b c : List ℕ} {fixups gixups : List BranchFixup}
    (h : Adds st st' b fixups) (h' : Adds st' st'' c gixups) :
    Adds st st'' (b ++ c) (fixups ++ gixups) := by
  obtain ⟨hout,hfix,hpos⟩ := h
  obtain ⟨hout',hfix',hpos'⟩ := h'
  have hlen : st.out.length ≤ st'.out.length ∧ st'.out.length ≤ st''.out.length := by
    rw [hout', hout]
    simp
  refine ⟨by rw [hout', hout, append_assoc],by rw [hfix', hfix, append_assoc],?_⟩
  intro fix hmem
  obtain hmem | hmem := mem_append.mp hmem
  · have := hpos fix hmem
    omega
  · have := hpos' fix hmem
    omega

variable {m : Mnemonic} {b : List ℕ} {fixups : List BranchFixup} {ins : Instruction}
    {out : List ℕ} {allow : Bool} {start pos : ℕ} {operands : List Operand}

theorem Emitted.relPos (h : Emitted start m operands b fixups) :
    ∀ fix ∈ fixups, start ≤ fix.relPos ∧ fix.relPos+4 ≤ start+b.length := by
  cases h with
  | complete _ => exact fun _ hmem => absurd hmem not_mem_nil
  | branch opcode cond _ _ =>
    intro fix hmem
    cases mem_singleton.mp hmem
    cases cond <;> simp [branchBytes, length_bytes]

theorem placeLabel_same (st : State) (ins : Instruction) :
    (placeLabel st ins).out = st.out ∧ (placeLabel st ins).fixups = st.fixups ∧
      (placeLabel st ins).diags = st.diags := by
  unfold placeLabel
  split <;> exact ⟨rfl,rfl,rfl⟩

theorem encodeStep_of_ok (hm : ins.mnemonic = some m)
    (h : encodeInstruction st.out.length m ins.operands = .ok (b,fixups)) :
    Adds st (encodeStep st ins) b fixups ∧ (encodeStep st ins).diags = st.diags := by
  obtain ⟨hout,hfix,hdiags⟩ := placeLabel_same st ins
  have hstep : encodeStep st ins = {placeLabel st ins with
      out := st.out ++ b
      fixups := st.fixups ++ fixups} := by
    simp [encodeStep, hm, hout, h, hfix]
  rw [hstep]
  refine ⟨⟨rfl,rfl,?_⟩,hdiags⟩
  intro fix hmem
  rw [length_append]
  exact (emitted_of_encodeInstruction h).relPos fix hmem

theorem encodeStep_cases (st : State) (ins : Instruction) :
    (∃ b fixups, Adds st (encodeStep st ins) b fixups) ∧
      ∃ more, (encodeStep st ins).diags = st.diags ++ more := by
  have hsame : ∀ st' : State, st'.out = st.out → st'.fixups = st.fixups →
      ∃ b fixups, Adds st st' b fixups := fun st' hout hfix =>
    ⟨[],[],by rw [hout, append_nil],by rw [hfix, append_nil],fun _ hmem => absurd hmem not_mem_nil⟩
  obtain ⟨hout,hfix,hdiags⟩ := placeLabel_same st ins
  cases hm : ins.mnemonic with
  | none =>
    have hstep : encodeStep st ins = placeLabel st ins := by simp [encodeStep, hm]
    rw [hstep]
    exact ⟨hsame _ hout hfix,[],by rw [hdiags, append_nil]⟩
  | some m =>
    cases h : encodeInstruction st.out.length m ins.operands with
    | ok r =>
      obtain ⟨hadds,hsame⟩ := encodeStep_of_ok hm h
      exact ⟨⟨_,_,hadds⟩,[],by rw [hsame, append_nil]⟩
    | error d =>
      have hstep : encodeStep st ins = {placeLabel st ins with diags := st.diags ++ [d]} := by
        simp [encodeStep, hm, hout, h, hdiags]
      rw [hstep]
      exact ⟨hsame _ hout hfix,[d],rfl⟩

theorem exists_encoded (hm : ins.mnemonic = some m) (h : (encodeStep st ins).diags = []) :
    ∃ b fixups, encodeInstruction st.out.length m ins.operands = .ok (b,fixups) := by
  cases henc : encodeInstruction st.out.length m ins.operands with
  | ok r => exact ⟨r.1,r.2,rfl⟩
  | error d =>
    obtain ⟨hout,-,hdiags⟩ := placeLabel_same st ins
    have hstep : (encodeStep st ins).diags = st.diags ++ [d] := by
      simp [encodeStep, hm, hout, henc, hdiags]
    rw [hstep] at h
    exact absurd h (append_ne_nil_of_right_ne_nil _ (cons_ne_nil _ _))

theorem foldl_encodeStep (st : State) :
    (∃ b fixups, Adds st (instructions.foldl encodeStep st) b fixups) ∧
      ∃ more, (instructions.foldl encodeStep st).diags = st.diags ++ more := by
  induction instructions generalizing st with
  | nil =>
    exact ⟨⟨[],[],by simp,by simp,fun _ hmem => absurd hmem not_mem_nil⟩,[],by simp⟩
  | cons ins rest ih =>
    obtain ⟨⟨b,fixups,hadds⟩,more,hmore⟩ := encodeStep_cases st ins
    obtain ⟨⟨c,gixups,hrest⟩,more',hmore'⟩ := ih (encodeStep st ins)
    refine ⟨⟨_,_,hadds.trans hrest⟩,more ++ more',?_⟩
    rw [foldl_cons, hmore', hmore, append_assoc]

/-! ## The second pass -/

theorem putUint32_append_left (h : pos+4 ≤ out.length) (rest : List ℕ)
    (v : ℤ) : putUint32 (out ++ rest) pos v = putUint32 out pos v ++ rest := by
  unfold putUint32
  rw [take_append_of_le_length (by omega), drop_append_of_le_length h]
  simp

theorem putUint32_append_right (pos : ℕ) (rest : List ℕ) (v : ℤ) :
    putUint32 (out ++ rest) (out.length+pos) v = out ++ putUint32 rest pos v := by
  unfold putUint32
  rw [take_length_add_append, add_assoc, drop_length_add_append]
  simp

theorem length_putUint32 (h : pos+4 ≤ out.length) (v : ℤ) :
    (putUint32 out pos v).length = out.length := by
  simp only [putUint32, length_append, length_take, length_drop, length_bytes]
  omega

section
variable (allow : Bool) (labels : List (String × ℕ))

/-- A target that the second pass accepts: a label in range, or an external symbol. -/
def Resolved (fix : BranchFixup) : Prop :=
  match labels.lookup fix.target with
  | none => (allow && isExternalCallBranch fix)
  | some target => FitsInt32 (target-fix.nextPC)

def filled (out : List ℕ) (fix : BranchFixup) : List ℕ :=
  match labels.lookup fix.target with
  | none => out
  | some target => putUint32 out fix.relPos (target-fix.nextPC)

theorem applyFixup_cases (r : Output) (fix : BranchFixup) :
    Resolved allow labels fix ∧ (applyFixup allow labels r fix).out = filled labels r.out fix ∧
        (applyFixup allow labels r fix).diags = r.diags ∨
      ∃ d, (applyFixup allow labels r fix).diags = r.diags ++ [d] := by
  unfold applyFixup Resolved filled
  cases labels.lookup fix.target with
  | none =>
    simp only
    split_ifs with hexternal
    · exact Or.inl ⟨hexternal,rfl,rfl⟩
    · exact Or.inr ⟨_,rfl⟩
  | some target =>
    simp only
    split_ifs with hrange
    · exact Or.inr ⟨_,rfl⟩
    · refine Or.inl ⟨?_,rfl,rfl⟩
      unfold FitsInt32
      omega

variable {fixups : List BranchFixup}

theorem foldl_applyFixup {r : Output} (h : (fixups.foldl (applyFixup allow labels) r).diags = []) :
    r.diags = [] ∧ (∀ fix ∈ fixups, Resolved allow labels fix) ∧
      (fixups.foldl (applyFixup allow labels) r).out = fixups.foldl (filled labels) r.out := by
  induction fixups generalizing r with
  | nil => exact ⟨h,fun _ hmem => absurd hmem not_mem_nil,rfl⟩
  | cons fix rest ih =>
    obtain ⟨hdiags,hrest,hout⟩ := ih h
    obtain ⟨hresolved,hfilled,hsame⟩ | ⟨d,hd⟩ := applyFixup_cases allow labels r fix
    · refine ⟨hsame ▸ hdiags,?_,?_⟩
      · intro fix' hmem
        obtain rfl | hmem := mem_cons.mp hmem
        · exact hresolved
        · exact hrest fix' hmem
      · rw [foldl_cons, hout, hfilled, foldl_cons]
    · rw [hd] at hdiags
      exact absurd hdiags (append_ne_nil_of_right_ne_nil _ (cons_ne_nil _ _))

theorem foldl_filled_left {out : List ℕ}
    (h : ∀ fix ∈ fixups, fix.relPos+4 ≤ out.length) (rest : List ℕ) :
    ∃ out', out'.length = out.length ∧
      fixups.foldl (filled labels) (out ++ rest) = out' ++ rest := by
  induction fixups generalizing out with
  | nil => exact ⟨out,rfl,rfl⟩
  | cons fix fixups ih =>
    have hpos := h fix (mem_cons_self ..)
    obtain ⟨out',hlen,hone⟩ : ∃ out', out'.length = out.length ∧
        filled labels (out ++ rest) fix = out' ++ rest := by
      unfold filled
      cases labels.lookup fix.target with
      | none => exact ⟨out,rfl,rfl⟩
      | some target => exact ⟨_,length_putUint32 hpos _,putUint32_append_left hpos rest _⟩
    have hrest : ∀ fix' ∈ fixups, fix'.relPos+4 ≤ out'.length := fun fix' hmem =>
      hlen ▸ h fix' (mem_cons_of_mem _ hmem)
    obtain ⟨out'',hlen',hmore⟩ := ih hrest
    exact ⟨out'',hlen'.trans hlen,by rw [foldl_cons, hone, hmore]⟩

theorem foldl_filled_right {out : List ℕ} (h : ∀ fix ∈ fixups, out.length ≤ fix.relPos)
    (rest : List ℕ) : ∃ rest', fixups.foldl (filled labels) (out ++ rest) = out ++ rest' := by
  induction fixups generalizing rest with
  | nil => exact ⟨rest,rfl⟩
  | cons fix fixups ih =>
    obtain ⟨rest',hone⟩ : ∃ rest', filled labels (out ++ rest) fix = out ++ rest' := by
      obtain ⟨pos,hpos⟩ := Nat.exists_eq_add_of_le (h fix (mem_cons_self ..))
      unfold filled
      rw [hpos]
      cases labels.lookup fix.target with
      | none => exact ⟨rest,rfl⟩
      | some target => exact ⟨_,putUint32_append_right pos rest _⟩
    obtain ⟨rest'',hmore⟩ := ih (fun fix' hmem => h fix' (mem_cons_of_mem _ hmem)) rest'
    exact ⟨rest'',by rw [foldl_cons, hone, hmore]⟩

end

/-! ## One instruction of a program -/

variable (labels : List (String × ℕ))

/-- The distance from the next instruction leads to the label. An external symbol
is left to its relocation. -/
def Reaches (next : ℕ) (l : String) (d : ℤ) : Prop :=
  match labels.lookup l with
  | some target => (next:ℤ)+d = target
  | none => True

theorem length_branchBytes (opcode : ℕ) (cond : Bool) (rel : ℤ) :
    (branchBytes opcode cond rel).length = if cond then 6 else 5 := by
  cases cond <;> simp [branchBytes, length_bytes]

theorem putUint32_branchBytes (opcode : ℕ) (cond : Bool) (rel : ℤ) :
    putUint32 (branchBytes opcode cond 0) (if cond then 2 else 1) rel =
      branchBytes opcode cond rel := by
  cases cond <;> simp [putUint32, branchBytes, bytes]

def FilledIn (start : ℕ) (fixups : List BranchFixup) (b b' : List ℕ) : Prop :=
  b'.length = b.length ∧ ∀ out rest : List ℕ, out.length = start →
    fixups.foldl (filled labels) (out ++ (b ++ rest)) = out ++ (b' ++ rest)

def distanceTo (l : String) (next : ℕ) : ℤ :=
  match labels.lookup l with
  | some target => target-next
  | none => 0

theorem filledIn_branch (start : ℕ) (m : Mnemonic) (l : String) (opcode : ℕ) (cond : Bool) :
    FilledIn labels start [⟨m,start+if cond then 2 else 1,l,start+if cond then 6 else 5⟩]
      (branchBytes opcode cond 0)
      (branchBytes opcode cond (distanceTo labels l (start+if cond then 6 else 5))) := by
  refine ⟨by rw [length_branchBytes, length_branchBytes],fun out rest hstart => ?_⟩
  simp only [foldl_cons, foldl_nil, filled, distanceTo]
  cases labels.lookup l with
  | none => rfl
  | some target =>
    simp only
    rw [← hstart, putUint32_append_right, putUint32_append_left, putUint32_branchBytes]
    rw [length_branchBytes]
    cases cond <;> decide

theorem Emitted.filled_faithful {labels : List (String × ℕ)} (h : Emitted start m operands b fixups)
    (hresolved : ∀ fix ∈ fixups, Resolved allow labels fix) :
    ∃ b', FilledIn labels start fixups b b' ∧
      (Faithful (Reaches labels (start+b.length)) m operands b' ↔ Carried m operands) := by
  cases h with
  | complete hfaithful => exact ⟨b,⟨rfl,fun _ _ _ => rfl⟩,hfaithful _⟩
  | @branch l opcode cond hcarried hfaithful =>
    refine ⟨_,filledIn_branch labels start m l opcode cond,iff_of_true ?_ hcarried⟩
    have hfix := hresolved _ (mem_singleton_self _)
    unfold Resolved at hfix
    simp only at hfix
    cases hlabel : labels.lookup l with
    | none =>
      rw [distanceTo, hlabel, hfaithful _ 0 (by decide), Reaches, hlabel]
      trivial
    | some target =>
      rw [hlabel] at hfix
      rw [distanceTo, hlabel, hfaithful _ _ hfix, Reaches, hlabel, length_branchBytes]
      simp only
      omega

def position : ℕ := (assembled instructions).out.length

def bytesFor (allowExternalCalls : Bool) (before : List Instruction) (ins : Instruction)
    (after : List Instruction) : List ℕ :=
  ((encode allowExternalCalls (before ++ ins::after)).out.drop (position before)).take
    (position (before ++ [ins])-position before)

theorem encode_accepted {instructions : List Instruction}
    (h : (encode allow instructions).diags = []) :
    (assembled instructions).diags = [] ∧
      (∀ fix ∈ (assembled instructions).fixups,
        Resolved allow (assembled instructions).labels fix) ∧
      (encode allow instructions).out =
        (assembled instructions).fixups.foldl (filled (assembled instructions).labels)
          (assembled instructions).out :=
  foldl_applyFixup _ _ h

theorem accepted_bytes {before after : List Instruction} (hm : ins.mnemonic = some m)
    (h : (encode allow (before ++ ins::after)).diags = []) :
    ∃ b fixups, encodeInstruction (position before) m ins.operands = .ok (b,fixups) ∧
      position (before ++ [ins]) = position before+b.length ∧
      (∀ fix ∈ fixups, Resolved allow (assembled (before ++ ins::after)).labels fix) ∧
      ∀ b', FilledIn (assembled (before ++ ins::after)).labels (position before) fixups b b' →
        bytesFor allow before ins after = b' := by
  have hall : assembled (before ++ ins::after) =
      after.foldl encodeStep (encodeStep (assembled before) ins) := by
    rw [assembled, foldl_append, foldl_cons, assembled]
  have hnext : assembled (before ++ [ins]) = encodeStep (assembled before) ins := by
    rw [assembled, foldl_append, foldl_cons, foldl_nil, assembled]
  obtain ⟨hdiags,hresolved,hout⟩ := encode_accepted h
  generalize (assembled (before ++ ins::after)).labels = labels at hresolved hout ⊢
  obtain ⟨⟨a,fixups,hbefore⟩,-⟩ := foldl_encodeStep before ⟨[],[],[],[]⟩
  change Adds ⟨[],[],[],[]⟩ (assembled before) a fixups at hbefore
  obtain ⟨⟨c,hixups,hafter⟩,more,hmore⟩ :=
    foldl_encodeStep after (encodeStep (assembled before) ins)
  rw [← hall] at hafter hmore
  -- no diagnostic at the end means none at this instruction
  rw [hdiags, eq_comm, append_eq_nil_iff] at hmore
  obtain ⟨b,gixups,hins⟩ := exists_encoded hm hmore.1
  obtain ⟨hbout,hbfix,hbpos⟩ := hbefore
  obtain ⟨⟨hiout,hifix,hipos⟩,-⟩ := encodeStep_of_ok hm hins
  obtain ⟨haout,hafix,hapos⟩ := hafter
  -- fixups before the instruction, its own, and those behind it
  have hfixups : (assembled (before ++ ins::after)).fixups = fixups ++ (gixups ++ hixups) := by
    rw [hafix, hifix, hbfix, nil_append, append_assoc]
  have hlast : (assembled (before ++ ins::after)).out = (assembled before).out ++ (b ++ c) := by
    rw [haout, hiout, append_assoc]
  have hsize : position (before ++ [ins]) = position before+b.length := by
    rw [position, position, hnext, hiout, length_append]
  rw [hfixups, hlast, foldl_append, foldl_append] at hout
  rw [hfixups] at hresolved
  refine ⟨b,gixups,hins,hsize,
    fun fix hmem => hresolved fix (mem_append_right _ (mem_append_left _ hmem)),?_⟩
  rintro b' ⟨hblen,hown⟩
  obtain ⟨out',hlen,hfirst⟩ := foldl_filled_left labels (fun fix hmem => (hbpos fix hmem).2) (b ++ c)
  have hbehind : ∀ fix ∈ hixups, (out' ++ b').length ≤ fix.relPos := by
    intro fix hmem
    have hpos := (hapos fix hmem).1
    rw [hiout, length_append] at hpos
    rw [length_append]
    omega
  obtain ⟨c',hrest⟩ := foldl_filled_right labels hbehind c
  rw [hfirst, hown out' c hlen, ← append_assoc, hrest, append_assoc] at hout
  rw [bytesFor, hsize, hout, Nat.add_sub_cancel_left, ← hblen, position, ← hlen,
    drop_left, take_left]

/-- In a program that is accepted, the bytes of an instruction are that
instruction and nothing else exactly when its operands are ones that the encoding
chosen for it can carry. -/
theorem assembler_fidelity_iff (allowExternalCalls : Bool) (before : List Instruction)
    (ins : Instruction) (after : List Instruction) (m : Mnemonic) (hm : ins.mnemonic = some m)
    (h : (encode allowExternalCalls (before ++ ins::after)).diags = []) :
    Faithful (Reaches (assembled (before ++ ins::after)).labels (position (before ++ [ins]))) m
        ins.operands (bytesFor allowExternalCalls before ins after) ↔
      Carried m ins.operands := by
  obtain ⟨b,fixups,hins,hsize,hresolved,hbytes⟩ := accepted_bytes hm h
  obtain ⟨b',hfilled,hiff⟩ := (emitted_of_encodeInstruction hins).filled_faithful hresolved
  rw [hbytes b' hfilled, hsize]
  exact hiff

/-- A store of r12 above the stack pointer, behind a label and before a jump to it. -/
theorem assembler_fidelity_spill :
    Faithful (Reaches [("again",0)] 5) .mov [.mem ⟨.general .w64 4,8,0⟩, .reg (.general .w64 12)]
      [0x4C, 0x89, 0x64, 0x24, 8] :=
  (assembler_fidelity_iff false []
    ⟨some .mov,[.mem ⟨.general .w64 4,8,0⟩, .reg (.general .w64 12)],some "again"⟩
    [⟨some .jmp,[.label "again"],none⟩] .mov rfl (by decide)).mpr
    ⟨⟨rfl,Or.inl rfl,fun h => absurd h (by decide)⟩,rfl,by decide⟩

/-- The move of cr3 to r8 is accepted and is the move to rax; a 16-bit store of a
constant is accepted and leaves two bytes behind. -/
theorem accepted_but_other_instruction :
    ((encode false [⟨some .mov,[.reg (.general .w64 8), .reg .cr3],none⟩]).diags = [] ∧
      ¬Faithful (Reaches [] 3) .mov [.reg (.general .w64 8), .reg .cr3]
        (bytesFor false [] ⟨some .mov,[.reg (.general .w64 8), .reg .cr3],none⟩ [])) ∧
    (encode false [⟨some .mov,[.mem ⟨.general .w64 0,0,16⟩, .imm 5],none⟩]).diags = [] ∧
      ¬Faithful (Reaches [] 8) .mov [.mem ⟨.general .w64 0,0,16⟩, .imm 5]
        (bytesFor false [] ⟨some .mov,[.mem ⟨.general .w64 0,0,16⟩, .imm 5],none⟩ []) := by
  have hcontrol : decode
      (bytesFor false [] ⟨some .mov,[.reg (.general .w64 8), .reg .cr3],none⟩ []) =
        some (⟨.mov,[.reg (.general 64 0), .reg (.control 3)]⟩,[]) := by decide
  have hstore : decode
      (bytesFor false [] ⟨some .mov,[.mem ⟨.general .w64 0,0,16⟩, .imm 5],none⟩ []) =
        some (⟨.mov,[.mem 16 ⟨.register 0,none,0⟩, .imm 16 5]⟩,[0,0]) := by decide
  refine ⟨⟨by decide,?_⟩,by decide,?_⟩
  · rw [faithful_two_iff hcontrol rfl]
    rintro ⟨hdst,-⟩
    change Register.general 64 0 = .general 64 8 at hdst
    cases hdst
  · rw [faithful_iff hstore]
    exact fun hsame => absurd hsame.1 (cons_ne_nil _ _)

/-! ### Where branches land -/

def nearBranch : Mnemonic → Option (ℕ × Bool)
  | .jmp => some (0xE9,false)
  | .call => some (0xE8,false)
  | .jcc c => some (condOpcode c,true)
  | _ => none

def labelsOf (instructions : List Instruction) : List String :=
  instructions.filterMap Instruction.label

variable {instructions : List Instruction} {m : Mnemonic}

section
variable {l : String} {ins : Instruction}

theorem lookup_encodeStep (st : State) (ins : Instruction) (l : String) :
    (encodeStep st ins).labels.lookup l =
      if ins.label = some l then some st.out.length else st.labels.lookup l := by
  have hlabels : (encodeStep st ins).labels = (placeLabel st ins).labels := by
    unfold encodeStep
    cases ins.mnemonic with
    | none => rfl
    | some m =>
      simp only
      split <;> rfl
  rw [hlabels, placeLabel]
  cases ins.label with
  | none => rfl
  | some l' =>
    by_cases h : l = l'
    · simp [h]
    · simp [lookup_cons, beq_false_of_ne h, Ne.symm h]

theorem lookup_foldl (instructions : List Instruction) (st : State) (h : l ∉ labelsOf instructions) :
    (instructions.foldl encodeStep st).labels.lookup l = st.labels.lookup l := by
  induction instructions generalizing st with
  | nil => rfl
  | cons ins rest ih =>
    rw [labelsOf, mem_filterMap] at h
    have hins : ins.label ≠ some l := fun hl => h ⟨ins,mem_cons_self,hl⟩
    rw [foldl_cons, ih, lookup_encodeStep, if_neg hins]
    rintro hl
    obtain ⟨i,hi,hl⟩ := mem_filterMap.mp hl
    exact h ⟨i,mem_cons_of_mem _ hi,hl⟩

variable {before after : List Instruction}

theorem lookup_label (hl : ins.label = some l) (h : l ∉ labelsOf after) :
    (assembled (before ++ ins::after)).labels.lookup l = some (position before) := by
  rw [assembled, foldl_append, foldl_cons, lookup_foldl after _ h, lookup_encodeStep, if_pos hl]
  rfl

theorem lookup_none {st : State} (h : (instructions.foldl encodeStep st).labels.lookup l = none) :
    l ∉ labelsOf instructions ∧ st.labels.lookup l = none := by
  induction instructions generalizing st with
  | nil => exact ⟨not_mem_nil,h⟩
  | cons ins rest ih =>
    obtain ⟨hrest,hstep⟩ := ih h
    rw [lookup_encodeStep] at hstep
    split_ifs at hstep with hins
    refine ⟨?_,hstep⟩
    rw [labelsOf, filterMap_cons]
    cases hl : ins.label with
    | none => exact hrest
    | some l' =>
      rw [mem_cons, not_or]
      exact ⟨fun h => hins (by rw [hl, h]),hrest⟩

/-- With distinct labels there is no second binding behind the first. -/
theorem label_not_after (h : (labelsOf (before ++ ins::after)).Nodup) (hl : ins.label = some l) :
    l ∉ labelsOf after := by
  rw [labelsOf, filterMap_append, filterMap_cons_some hl] at h
  exact (nodup_cons.mp (nodup_append.mp h).2.1).1

end

/-! ## Fixups -/

def fixupAt (m : Mnemonic) (cond : Bool) (l : String) (start : ℕ) : BranchFixup :=
  ⟨m,start+if cond then 2 else 1,l,start+if cond then 6 else 5⟩

theorem encodeInstruction_near {opcode : ℕ} {cond : Bool}
    (h : nearBranch m = some (opcode,cond)) (start : ℕ) (l : String) :
    encodeInstruction start m [.label l] =
      .ok (branchBytes opcode cond 0,[fixupAt m cond l start]) := by
  cases m <;> cases h <;> rfl

variable {fixups : List BranchFixup} {fix : BranchFixup}

theorem fixup_of_encoded {start : ℕ} {operands : List Operand} {b : List ℕ}
    (h : encodeInstruction start m operands = .ok (b,fixups)) (hfix : fix ∈ fixups) :
    ∃ opcode cond, nearBranch m = some (opcode,cond) ∧ operands = [.label fix.target] ∧
      fix = fixupAt m cond fix.target start := by
  obtain ⟨l,rfl⟩ : ∃ l, operands = [.label l] := by
    cases emitted_of_encodeInstruction h with
    | complete _ => cases hfix
    | branch _ _ _ _ => exact ⟨_,rfl⟩
  cases hnear : nearBranch m with
  | some p =>
    rw [encodeInstruction_near hnear] at h
    cases h
    cases mem_singleton.mp hfix
    exact ⟨p.1,p.2,rfl,rfl,rfl⟩
  | none =>
    -- the other mnemonics have no form with a label
    cases m <;> first | (cases hnear; done) | (cases h; done) | (cases h; cases hfix)

theorem mem_fixups (h : fix ∈ (assembled instructions).fixups) :
    ∃ before ins after m opcode cond, instructions = before ++ ins::after ∧
      ins.mnemonic = some m ∧ nearBranch m = some (opcode,cond) ∧
      ins.operands = [.label fix.target] ∧ fix = fixupAt m cond fix.target (position before) := by
  induction instructions using List.reverseRecOn with
  | nil => cases h
  | append_singleton instructions ins ih =>
    by_cases hold : fix ∈ (assembled instructions).fixups
    · obtain ⟨before,ins',after,m,opcode,cond,rfl,hrest⟩ := ih hold
      exact ⟨before,ins',after ++ [ins],m,opcode,cond,by simp,hrest⟩
    · rw [assembled, foldl_append, foldl_cons, foldl_nil, ← assembled] at h
      obtain ⟨hout,hfix,-⟩ := placeLabel_same (assembled instructions) ins
      cases hm : ins.mnemonic with
      | none =>
        simp only [encodeStep, hm, hfix] at h
        exact absurd h hold
      | some m =>
        cases henc : encodeInstruction (assembled instructions).out.length m ins.operands with
        | error d =>
          simp only [encodeStep, hm, hout, henc, hfix] at h
          exact absurd h hold
        | ok r =>
          rw [(encodeStep_of_ok hm henc).1.2.1] at h
          obtain ⟨opcode,cond,hnear,hops,heq⟩ :=
            fixup_of_encoded henc ((mem_append.mp h).resolve_left hold)
          exact ⟨instructions,ins,[],m,opcode,cond,rfl,hm,hnear,hops,heq⟩

theorem mem_relocs {allow : Bool} {labels : List (String × ℕ)} {r : Output}
    {reloc : ExternalCallReloc} (h : reloc ∈ (fixups.foldl (applyFixup allow labels) r).relocs) :
    reloc ∈ r.relocs ∨ ∃ fix ∈ fixups, labels.lookup fix.target = none ∧
      isExternalCallBranch fix ∧ reloc = ⟨fix.relPos,fix.target⟩ := by
  induction fixups generalizing r with
  | nil => exact .inl h
  | cons fix fixups ih =>
    rcases ih h with hone | ⟨fix',hmem,hrest⟩
    · rw [applyFixup] at hone
      split at hone
      · next hnone =>
        split_ifs at hone with hexternal
        · rcases mem_append.mp hone with hold | hnew
          · exact .inl hold
          · rw [Bool.and_eq_true] at hexternal
            exact .inr ⟨fix,mem_cons_self,hnone,hexternal.2,mem_singleton.mp hnew⟩
        · exact .inl hone
      · simp only at hone
        split_ifs at hone <;> exact .inl hone
    · exact .inr ⟨fix',mem_cons_of_mem _ hmem,hrest⟩

/-- In an accepted program with distinct labels every branch to a label of the
program has the distance from the next instruction to the first byte behind the
label, and every relocation marks the last four bytes of a call or jump to a name
that is no label of the program. -/
theorem branches_land (allowExternalCalls : Bool) (instructions : List Instruction)
    (hdistinct : (labelsOf instructions).Nodup)
    (h : (encode allowExternalCalls instructions).diags = []) :
    (∀ before ins after m opcode cond l, instructions = before ++ ins::after →
      ins.mnemonic = some m → nearBranch m = some (opcode,cond) → ins.operands = [.label l] →
      ∀ before' target after', instructions = before' ++ target::after' → target.label = some l →
        ∃ rel : ℤ, FitsInt32 rel ∧ (position (before ++ [ins]) : ℤ)+rel = position before' ∧
          bytesFor allowExternalCalls before ins after = branchBytes opcode cond rel) ∧
    ∀ reloc ∈ (encode allowExternalCalls instructions).relocs,
      reloc.symbol ∉ labelsOf instructions ∧
      ∃ before ins after m, instructions = before ++ ins::after ∧ ins.mnemonic = some m ∧
        (m = .call ∨ m = .jmp) ∧ ins.operands = [.label reloc.symbol] ∧
        reloc.offset = position before+1 ∧ position (before ++ [ins]) = reloc.offset+4 := by
  constructor
  · intro before ins after m opcode cond l hsplit hm hnear hops before' target after' hsplit' hl
    have hlookup : (assembled instructions).labels.lookup l = some (position before') := by
      rw [hsplit'] at hdistinct ⊢
      exact lookup_label hl (label_not_after hdistinct hl)
    rw [hsplit] at h
    obtain ⟨b,fixups,hins,hsize,hresolved,hbytes⟩ := accepted_bytes hm h
    rw [hops, encodeInstruction_near hnear] at hins
    cases hins
    have hrange := hresolved _ (mem_singleton_self _)
    have hfilled := hbytes _ (filledIn_branch _ _ m l opcode cond)
    rw [← hsplit] at hrange hfilled
    rw [distanceTo, hlookup] at hfilled
    simp only [Resolved, fixupAt, hlookup] at hrange
    refine ⟨_,hrange,?_,hfilled⟩
    rw [hsize, length_branchBytes]
    omega
  · intro reloc hreloc
    obtain hnil | ⟨fix,hfix,hnone,hexternal,rfl⟩ := mem_relocs hreloc
    · cases hnil
    obtain ⟨before,ins,after,m,opcode,cond,rfl,hm,hnear,hops,heq⟩ := mem_fixups hfix
    refine ⟨(lookup_none hnone).1,before,ins,after,m,rfl,hm,?_⟩
    obtain ⟨b,fixups,hins,hsize,-⟩ := accepted_bytes hm h
    rw [hops, encodeInstruction_near hnear] at hins
    cases hins
    rw [hsize, length_branchBytes, heq]
    rw [heq] at hexternal hops
    cases m <;> cases hnear <;> first | cases hexternal | exact ⟨by simp,hops,rfl,rfl⟩

/-- A jump forward over a call of an external routine, and one back. -/
theorem branches_land_loop :
    ∃ rel : ℤ, FitsInt32 rel ∧
      (position [⟨some .jmp,[.label "end"],some "again"⟩] : ℤ)+rel =
        position [⟨some .jmp,[.label "end"],some "again"⟩,
          ⟨some .call,[.label "_wrela_f"],none⟩,⟨some .jmp,[.label "again"],none⟩] ∧
      bytesFor true [] ⟨some .jmp,[.label "end"],some "again"⟩
        [⟨some .call,[.label "_wrela_f"],none⟩,⟨some .jmp,[.label "again"],none⟩,
          ⟨none,[],some "end"⟩] = branchBytes 0xE9 false rel :=
  (branches_land true [⟨some .jmp,[.label "end"],some "again"⟩,
    ⟨some .call,[.label "_wrela_f"],none⟩,⟨some .jmp,[.label "again"],none⟩,
    ⟨none,[],some "end"⟩] (by decide) (by decide)).1 [] _ _ .jmp 0xE9 false "end" rfl rfl rfl rfl
      [⟨some .jmp,[.label "end"],some "again"⟩,⟨some .call,[.label "_wrela_f"],none⟩,
        ⟨some .jmp,[.label "again"],none⟩] _ _ rfl rfl

end Wrela.Asm
