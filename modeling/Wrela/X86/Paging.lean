import Wrela.X86.Memory

/-!
# Four-level page tables in memory

The page walk of the processor, and trees of tables that are laid out one after
the other in an area of memory. A tree is known by the list of its tables in the
order in which they were made and by the set of 2 MiB pages that it maps to
themselves. A table stands for the addresses that share a number of leading
digits to base 512; it is named by its level (3 for the root, 1 for the tables of
2 MiB pages) and by those digits.
-/

set_option autoImplicit false

namespace X86.Paging
open List BitVec

/-! ## The page walk -/

def slot (a : Word) (i : ℕ) : Word := a+BitVec.ofNat 64 (8*i)

def flag (k : ℕ) (e : Word) : Bool := e.toNat/2^k%2 == 1

def present : Word → Bool := flag 0
def writable : Word → Bool := flag 1
def large : Word → Bool := flag 7

/-- The address in an entry: bits 51 down to `bits`. -/
def entryAddress (bits : ℕ) (e : Word) : Word := BitVec.ofNat 64 (e.toNat%2^52/2^bits*2^bits)

structure Translation where
  address : Word
  writable : Bool
  deriving DecidableEq

/-- The entry for an address in the table that an entry or the root points to. -/
def entry (m : Mem) (table : Word) (v : Word) (level : ℕ) : Word :=
  load m (slot (entryAddress 12 table) (v.toNat/2^(12+9*level)%512)) 8

/-- The translation of an address; `none` is a fault. A set reserved bit of an
entry is a fault too. -/
def walk (m : Mem) (root v : Word) : Option Translation :=
  let e4 := entry m root v 3
  let e3 := entry m e4 v 2
  let e2 := entry m e3 v 1
  let e1 := entry m e2 v 0
  let offset (bits : ℕ) : Word := BitVec.ofNat 64 (v.toNat%2^bits)
  if v.toNat/2^47 ≠ 0 ∧ v.toNat/2^47 ≠ 2^17-1 then none
  else if present e4 = false ∨ large e4 then none
  else if present e3 = false then none
  else if large e3 then
    if e3.toNat/2^13%2^17 ≠ 0 then none
    else some ⟨entryAddress 30 e3+offset 30,writable e4 && writable e3⟩
  else if present e2 = false then none
  else if large e2 then
    if e2.toNat/2^13%2^8 ≠ 0 then none
    else some ⟨entryAddress 21 e2+offset 21,writable e4 && writable e3 && writable e2⟩
  else if present e1 = false then none
  else some ⟨entryAddress 12 e1+offset 12,
    writable e4 && writable e3 && writable e2 && writable e1⟩

/-- The tables a walk from the root may go through, with their names. -/
inductive TableAt (m : Mem) (root : Word) : ℕ → ℕ → Word → Prop
  | root : TableAt m root 3 0 (entryAddress 12 root)
  | child {ℓ q : ℕ} {t : Word} (h : TableAt m root (ℓ+1) q t) (j : ℕ) (hj : j < 512)
      (hp : present (load m (slot t j) 8)) (hl : large (load m (slot t j) 8) = false) :
      TableAt m root ℓ (512*q+j) (entryAddress 12 (load m (slot t j) 8))

/-! ## Words of an area -/

section
variable {m : Mem} {a v : Word} {n i j : ℕ}

theorem slot_slot : slot (slot a i) j = slot a (i+j) := by
  rw [slot, slot, slot, add_ofNat_add, Nat.mul_add]

theorem load_store_slot : load (store m (slot a i) 8 v) (slot a i) 8 = v := by
  rw [load_store v (by omega), lowBytes_eight]

theorem load_store_slot_ne (hn : 8*n ≤ 2^64) (hi : i < n) (hj : j < n) (h : i ≠ j) :
    load (store m (slot a i) 8 v) (slot a j) 8 = load m (slot a j) 8 := by
  refine load_store_other fun x hx hx' => ?_
  rw [slot, inRange_add_iff (by omega)] at hx hx'
  omega

end

/-! ## Areas and entries -/

/-- Room for a number of tables in the physical address space. -/
structure Area where
  start : Word
  tables : ℕ
  aligned : start.toNat%4096 = 0
  bound : start.toNat+4096*tables ≤ 2^52

variable {k' p : ℕ}

namespace Area
variable (A : Area) {k : ℕ}

def table (k : ℕ) : Word := slot A.start (512*k)

def tableEntry (k : ℕ) : Word := A.table k+3

theorem words_bound : 8*(512*A.tables) ≤ 2^64 := by
  have := A.bound
  omega

section
variable (hk : k < A.tables)
include hk

theorem table_toNat : (A.table k).toNat = A.start.toNat+4096*k := by
  have := A.bound
  rw [table, slot, toNat_add, toNat_ofNat]
  omega

theorem table_aligned : (A.table k).toNat%4096 = 0 := by
  have := A.aligned
  rw [A.table_toNat hk]
  omega

theorem table_disjoint (hk' : k' < A.tables) (h : k ≠ k') :
    Disjoint (A.table k) 4096 (A.table k') 4096 := by
  have hb := A.bound
  intro x hx hx'
  rw [table, slot, inRange_add_iff (by omega)] at hx hx'
  omega

theorem tableEntry_toNat : (A.tableEntry k).toNat = A.start.toNat+4096*k+3 := by
  have := A.bound
  have h3 : (3 : Word).toNat = 3 := rfl
  rw [tableEntry, toNat_add, A.table_toNat hk, h3]
  omega

theorem entryAddress_tableEntry : entryAddress 12 (A.tableEntry k) = A.table k := by
  have hb := A.bound
  have ha := A.aligned
  apply eq_of_toNat_eq
  rw [entryAddress, toNat_ofNat, A.tableEntry_toNat hk, A.table_toNat hk]
  omega

end

theorem table_zero : A.table 0 = A.start := by
  rw [table, slot]
  exact BitVec.add_zero _

theorem entryAddress_start (h : 0 < A.tables) : entryAddress 12 A.start = A.table 0 := by
  have hb := A.bound
  have ha := A.aligned
  apply eq_of_toNat_eq
  rw [entryAddress, toNat_ofNat, A.table_zero]
  omega

theorem flags_tableEntry (hk : k < A.tables) : present (A.tableEntry k) ∧
    writable (A.tableEntry k) ∧ large (A.tableEntry k) = false := by
  have ha := A.aligned
  simp only [present, writable, large, flag, A.tableEntry_toNat hk, beq_iff_eq, beq_eq_false_iff_ne]
  omega

end Area

def pageEntry (p : ℕ) : Word := BitVec.ofNat 64 (p*2^21)+0x83

section
variable {p : ℕ} (hp : p < 2^26)
include hp

theorem pageEntry_toNat : (pageEntry p).toNat = p*2^21+0x83 := by
  have h83 : (0x83 : Word).toNat = 0x83 := rfl
  rw [pageEntry, toNat_add, toNat_ofNat, h83]
  omega

theorem entryAddress_pageEntry : entryAddress 21 (pageEntry p) = BitVec.ofNat 64 (p*2^21) := by
  have hfield : (p*2^21+0x83)%2^52/2^21*2^21 = p*2^21 := by omega
  rw [entryAddress, pageEntry_toNat hp, hfield]

theorem flags_pageEntry : present (pageEntry p) ∧ writable (pageEntry p) ∧
    large (pageEntry p) ∧ (pageEntry p).toNat/2^13%2^8 = 0 := by
  simp only [present, writable, large, flag, pageEntry_toNat hp, beq_iff_eq]
  omega

end

section
variable {m : Mem} {root v : Word}

theorem walk_eq_none_of_root (h : present (entry m root v 3) = false) : walk m root v = none := by
  simp [walk, h]

theorem walk_eq_none_of_table (h : present (entry m (entry m root v 3) v 2) = false) :
    walk m root v = none := by
  simp [walk, h]

variable (h3 : large (entry m (entry m root v 3) v 2) = false)
include h3

theorem walk_eq_none_of_page (h : present (entry m (entry m (entry m root v 3) v 2) v 1) = false) :
    walk m root v = none := by
  simp [walk, h, h3]

theorem walk_eq_page (hv : v.toNat < 2^47)
    (h4 : present (entry m root v 3) ∧ writable (entry m root v 3) ∧
      large (entry m root v 3) = false) (hp : present (entry m (entry m root v 3) v 2))
    (hw : writable (entry m (entry m root v 3) v 2)) (hlt : p < 2^26)
    (hpage : entry m (entry m (entry m root v 3) v 2) v 1 = pageEntry p) :
    walk m root v = some ⟨BitVec.ofNat 64 (p*2^21)+BitVec.ofNat 64 (v.toNat%2^21),true⟩ := by
  have hcanonical : ¬ (v.toNat/2^47 ≠ 0 ∧ v.toNat/2^47 ≠ 2^17-1) := by omega
  obtain ⟨f1,f2,f3,f4⟩ := flags_pageEntry hlt
  obtain ⟨g1,g2,g3⟩ := h4
  simp only [walk, if_neg hcanonical, g1, g2, g3, h3, hp, hw, hpage, f1, f2, f3, f4,
    entryAddress_pageEntry hlt]
  rfl

end

/-! ## Trees of tables -/

/-- What the entry for the digits `c` of a table of the given level holds. -/
def Holds (A : Area) (nodes : List (ℕ × ℕ)) (pages : Finset ℕ) (c : ℕ) (e : Word) : ℕ → Prop
  | 0 => False
  | 1 => e = if c ∈ pages then pageEntry c else 0
  | ℓ+2 => (∀ k, nodes[k]? = some (ℓ+1, c) → e = A.tableEntry k) ∧ ((ℓ+1, c) ∉ nodes → e = 0)

structure Tree (A : Area) (m : Mem) (nodes : List (ℕ × ℕ)) (pages : Finset ℕ) : Prop where
  nodup : nodes.Nodup
  fits : nodes.length ≤ A.tables
  root : nodes[0]? = some (3, 0)
  top : ∀ ℓ q, (ℓ, q) ∈ nodes → 3 ≤ ℓ → ℓ = 3 ∧ q = 0
  parent : ∀ ℓ c, (ℓ, c) ∈ nodes → ℓ < 3 → (ℓ+1, c/512) ∈ nodes
  covered : ∀ p ∈ pages, (1, p/512) ∈ nodes ∧ p < 2^26
  word : ∀ k ℓ q, nodes[k]? = some (ℓ, q) → ∀ j < 512,
    Holds A nodes pages (512*q+j) (load m (slot A.start (512*k+j)) 8) ℓ

namespace Tree
variable {A : Area} {m m' : Mem} {nodes : List (ℕ × ℕ)} {pages : Finset ℕ} {k ℓ c q : ℕ}
  {n : ℕ × ℕ}

theorem lt_tables (h : Tree A m nodes pages) (hk : nodes[k]? = some n) : k < A.tables :=
  lt_of_lt_of_le (List.getElem?_eq_some_iff.mp hk).1 h.fits

theorem index_unique (h : Tree A m nodes pages) {k : ℕ}
    (hk : nodes[k]? = some n) (hk' : nodes[k']? = some n) : k = k' :=
  (getElem?_inj (List.getElem?_eq_some_iff.mp hk).1 h.nodup).mp (hk.trans hk'.symm)

theorem empty (hroom : 0 < A.tables) (hm : ∀ j < 512, load m (slot A.start j) 8 = 0) :
    Tree A m [(3, 0)] ∅ where
  nodup := nodup_singleton _
  fits := hroom
  root := rfl
  top ℓ q hq _ := by simpa using hq
  parent ℓ c hc h3 := by
    obtain ⟨rfl,-⟩ : ℓ = 3 ∧ c = 0 := by simpa using hc
    omega
  covered p hp := absurd hp (Finset.notMem_empty p)
  word k ℓ q hk j hj := by
    obtain ⟨rfl,rfl,rfl⟩ : k = 0 ∧ ℓ = 3 ∧ q = 0 := by
      cases k with
      | zero => simpa [eq_comm] using hk
      | succ k => simp at hk
    refine ⟨fun k' hk' => ?_,fun _ => by simpa using hm j hj⟩
    have := mem_of_getElem? hk'
    simp at this

section
variable (h : Tree A m nodes pages)
include h

theorem frame (hm : ∀ i < 512*A.tables, load m' (slot A.start i) 8 = load m (slot A.start i) 8) :
    Tree A m' nodes pages where
  __ := h
  word k ℓ q hk j hj := by
    have := h.lt_tables hk
    rw [hm (512*k+j) (by omega)]
    exact h.word k ℓ q hk j hj

theorem leaf_entry (hk : nodes[k]? = some (1, p/512)) :
    load m (slot (A.table k) (p%512)) 8 = if p ∈ pages then pageEntry p else 0 := by
  have hword := h.word k 1 (p/512) hk (p%512) (Nat.mod_lt _ (by omega))
  rw [show 512*(p/512)+p%512 = p by omega] at hword
  rw [Area.table, slot_slot]
  exact hword

theorem link_entry (hk : nodes[k]? = some (ℓ+2, c/512)) :
    (∀ k', nodes[k']? = some (ℓ+1, c) → load m (slot (A.table k) (c%512)) 8 = A.tableEntry k') ∧
    ((ℓ+1, c) ∉ nodes → load m (slot (A.table k) (c%512)) 8 = 0) := by
  have hword := h.word k (ℓ+2) (c/512) hk (c%512) (Nat.mod_lt _ (by omega))
  rw [show 512*(c/512)+c%512 = c by omega] at hword
  rw [Area.table, slot_slot]
  exact hword

theorem leaf (hp : p < 2^26) (hk : nodes[k]? = some (1, p/512)) :
    Tree A (store m (slot (A.table k) (p%512)) 8 (pageEntry p)) nodes (insert p pages) where
  nodup := h.nodup
  fits := h.fits
  root := h.root
  top := h.top
  parent := h.parent
  covered q hq := by
    rcases Finset.mem_insert.mp hq with rfl | hq
    · exact ⟨mem_of_getElem? hk,hp⟩
    · exact h.covered q hq
  word k' ℓ q hk' j hj := by
    have hlt := h.lt_tables hk
    have hlt' := h.lt_tables hk'
    have hold := h.word k' ℓ q hk' j hj
    rw [Area.table, slot_slot]
    by_cases hi : 512*k+p%512 = 512*k'+j
    · obtain rfl : k = k' := by omega
      obtain ⟨rfl,rfl⟩ : 1 = ℓ ∧ p/512 = q := by simpa using hk.symm.trans hk'
      rw [← hi, load_store_slot, Holds, if_pos (by simp; omega)]
      congr 1
      omega
    · rw [load_store_slot_ne A.words_bound (by omega) (by omega) hi]
      match ℓ, hold with
      | 1, hold =>
        have hne : 512*q+j ≠ p := by
          rintro rfl
          rw [show (512*q+j)/512 = q by omega] at hk
          have := h.index_unique hk hk'
          omega
        rw [Holds] at hold ⊢
        rw [hold]
        simp [hne]
      | ℓ+2, hold => exact hold

/-- A table is linked into its parent. A new table of pages may come with some of
its pages in place. -/
theorem grow {pages' : Finset ℕ} (hℓ : ℓ < 2) (hk : nodes[k]? = some (ℓ+2, c/512))
    (hnew : (ℓ+1, c) ∉ nodes) (hroom : nodes.length < A.tables)
    (hlink : load m' (slot (A.table k) (c%512)) 8 = A.tableEntry nodes.length)
    (hold : ∀ i < 512*nodes.length, i ≠ 512*k+c%512 →
      load m' (slot A.start i) 8 = load m (slot A.start i) 8)
    (htable : ∀ j < 512, load m' (slot (A.table nodes.length) j) 8 =
      if ℓ = 0 ∧ 512*c+j ∈ pages' then pageEntry (512*c+j) else 0) (hsub : pages ⊆ pages')
    (hpages : ∀ p ∈ pages', p ∈ pages ∨ ℓ = 0 ∧ p/512 = c ∧ p < 2^26) :
    Tree A m' (nodes++[(ℓ+1, c)]) pages' where
  nodup := by
    rw [nodup_append_comm, singleton_append]
    exact nodup_cons.mpr ⟨hnew,h.nodup⟩
  fits := by
    rw [length_append]
    exact hroom
  root := by
    rw [getElem?_append_left (List.getElem?_eq_some_iff.mp h.root).1]
    exact h.root
  top ℓ' q hq h3 := by
    rcases mem_append.mp hq with hq | hq
    · exact h.top ℓ' q hq h3
    · obtain ⟨rfl,rfl⟩ : ℓ' = ℓ+1 ∧ q = c := by simpa using hq
      omega
  parent ℓ' c' hc h3 := by
    apply mem_append_left
    rcases mem_append.mp hc with hc | hc
    · exact h.parent ℓ' c' hc h3
    · obtain ⟨rfl,rfl⟩ : ℓ' = ℓ+1 ∧ c' = c := by simpa using hc
      exact mem_of_getElem? hk
  covered p hp := by
    rcases hpages p hp with hp | ⟨rfl,rfl,hlt⟩
    · exact ⟨mem_append_left _ (h.covered p hp).1,(h.covered p hp).2⟩
    · exact ⟨mem_append_right _ (mem_singleton_self _),hlt⟩
  word k' ℓ' q hk' j hj := by
    have hlt := (List.getElem?_eq_some_iff.mp hk).1
    -- the new table is the last one, so it is found nowhere among the others
    have hindex {n : ℕ × ℕ} {i : ℕ} (hi : (nodes++[(ℓ+1, c)])[i]? = some n) :
        nodes[i]? = some n ∨ i = nodes.length ∧ n = (ℓ+1, c) := by
      rcases lt_or_ge i nodes.length with hl | hl
      · rw [getElem?_append_left hl] at hi
        exact .inl hi
      · rw [getElem?_append_right hl] at hi
        obtain rfl : i = nodes.length := by
          have := (List.getElem?_eq_some_iff.mp hi).1
          simp at this
          omega
        simp at hi
        exact .inr ⟨rfl,hi.symm⟩
    rcases hindex hk' with hk' | ⟨rfl,hn⟩
    · have hlt' := (List.getElem?_eq_some_iff.mp hk').1
      have hword := h.word k' ℓ' q hk' j hj
      by_cases hi : 512*k'+j = 512*k+c%512
      · obtain rfl : k' = k := by omega
        obtain ⟨rfl,rfl⟩ : ℓ+2 = ℓ' ∧ c/512 = q := by simpa using hk.symm.trans hk'
        rw [Area.table, slot_slot] at hlink
        rw [hi, hlink, show 512*(c/512)+j = c by omega]
        refine ⟨fun i hi => ?_,fun hc => absurd (by simp) hc⟩
        rcases hindex hi with hi | ⟨rfl,-⟩
        · exact absurd (mem_of_getElem? hi) hnew
        · rfl
      · rw [hold (512*k'+j) (by omega) hi]
        match ℓ', hword with
        | 1, hword =>
          have hsame : 512*q+j ∈ pages' ↔ 512*q+j ∈ pages := by
            refine ⟨fun hp => ?_,fun hp => hsub hp⟩
            rcases hpages _ hp with hp | ⟨rfl,hq,-⟩
            · exact hp
            · rw [show (512*q+j)/512 = q by omega] at hq
              subst hq
              exact absurd (mem_of_getElem? hk') hnew
          rw [Holds] at hword ⊢
          rw [hword]
          simp [hsame]
        | ℓ'+2, hword =>
          have hchild : (ℓ'+1, 512*q+j) ≠ (ℓ+1, c) := by
            intro he
            obtain ⟨rfl,rfl⟩ : ℓ' = ℓ ∧ 512*q+j = c := by simpa using he
            rw [show (512*q+j)/512 = q by omega] at hk
            have := h.index_unique hk hk'
            omega
          refine ⟨fun i hi => ?_,fun hc => hword.2 fun hmem => hc (mem_append_left _ hmem)⟩
          rcases hindex hi with hi | ⟨-,he⟩
          · exact hword.1 i hi
          · exact absurd he hchild
    · obtain ⟨rfl,rfl⟩ : ℓ' = ℓ+1 ∧ q = c := by simpa using hn
      have htable := htable j hj
      rw [Area.table, slot_slot] at htable
      rw [htable]
      match ℓ, hℓ with
      | 0, _ => simp [Holds]
      | 1, _ =>
        refine ⟨fun i hi => ?_,fun _ => by simp⟩
        rcases hindex hi with hi | ⟨-,he⟩
        · have := h.parent 1 _ (mem_of_getElem? hi) (by omega)
          rw [show (512*q+j)/512 = q by omega] at this
          exact absurd this hnew
        · simp at he

/-- A walk through the tree translates the addresses of its pages to themselves
and faults at all others of the lower half. -/
theorem walk_eq {v : Word} (hv : v.toNat < 2^47) :
    walk m A.start v = if v.toNat/2^21 ∈ pages then some ⟨v,true⟩ else none := by
  have hroot := h.lt_tables h.root
  obtain ⟨p,hp⟩ : ∃ p, p = v.toNat/2^21 := ⟨_,rfl⟩
  have hroot' : nodes[0]? = some (3, p/512/512/512) := by
    rw [show p/512/512/512 = 0 by omega]
    exact h.root
  obtain ⟨hlink4,hnone4⟩ := h.link_entry hroot'
  have h4 : entry m A.start v 3 = load m (slot (A.table 0) (p/512/512%512)) 8 := by
    rw [entry, A.entryAddress_start hroot, show v.toNat/2^(12+9*3)%512 = p/512/512%512 by omega]
  rw [← h4] at hlink4 hnone4
  rw [← hp]
  by_cases h2 : (2, p/512/512) ∈ nodes
  · obtain ⟨k2,hk2⟩ := mem_iff_getElem?.mp h2
    have hlt2 := h.lt_tables hk2
    obtain ⟨hlink3,hnone3⟩ := h.link_entry hk2
    have h3 : entry m (entry m A.start v 3) v 2 = load m (slot (A.table k2) (p/512%512)) 8 := by
      rw [hlink4 k2 hk2, entry, A.entryAddress_tableEntry hlt2,
        show v.toNat/2^(12+9*2)%512 = p/512%512 by omega]
    rw [← h3] at hlink3 hnone3
    by_cases h1 : (1, p/512) ∈ nodes
    · obtain ⟨k1,hk1⟩ := mem_iff_getElem?.mp h1
      have hlt1 := h.lt_tables hk1
      have hpage : entry m (entry m (entry m A.start v 3) v 2) v 1 =
          if p ∈ pages then pageEntry p else 0 := by
        rw [hlink3 k1 hk1, entry, A.entryAddress_tableEntry hlt1,
          show v.toNat/2^(12+9*1)%512 = p%512 by omega, h.leaf_entry hk1]
      obtain ⟨f1,f2,f3⟩ := A.flags_tableEntry hlt1
      rw [← hlink3 k1 hk1] at f1 f2 f3
      by_cases hmem : p ∈ pages
      · have hflags := A.flags_tableEntry hlt2
        rw [← hlink4 k2 hk2] at hflags
        rw [if_pos hmem] at hpage ⊢
        rw [walk_eq_page f3 hv hflags f1 f2 (h.covered p hmem).2 hpage, ← ofNat_add,
          show p*2^21+v.toNat%2^21 = v.toNat by omega, ofNat_toNat, setWidth_eq]
      · rw [if_neg hmem] at hpage ⊢
        exact walk_eq_none_of_page f3 (by rw [hpage]; rfl)
    · have hmem : p ∉ pages := fun hp => h1 (h.covered p hp).1
      rw [if_neg hmem]
      exact walk_eq_none_of_table (by rw [hnone3 h1]; rfl)
  · have hmem : p ∉ pages := fun hp => h2 (h.parent 1 _ (h.covered p hp).1 (by omega))
    rw [if_neg hmem]
    exact walk_eq_none_of_root (by rw [hnone4 h2]; rfl)

theorem tableAt {t : Word} (ht : TableAt m A.start ℓ q t) :
    ∃ k, nodes[k]? = some (ℓ, q) ∧ t = A.table k := by
  induction ht with
  | root => exact ⟨0,h.root,A.entryAddress_start (h.lt_tables h.root)⟩
  | @child ℓ q t _ j hj hp hl ih =>
    obtain ⟨k,hk,rfl⟩ := ih
    have hword := h.word k (ℓ+1) q hk j hj
    rw [Area.table, slot_slot] at hp hl ⊢
    match ℓ, hword with
    | 0, hword =>
      -- a table of pages points to no further tables
      rw [Holds] at hword
      rw [hword] at hp hl
      split_ifs at hp hl with hmem
      · have := (flags_pageEntry (h.covered _ hmem).2).2.2.1
        rw [hl] at this
        cases this
      · cases hp
    | ℓ+1, hword =>
      by_cases hc : (ℓ+1, 512*q+j) ∈ nodes
      · obtain ⟨k',hk'⟩ := mem_iff_getElem?.mp hc
        rw [hword.1 k' hk']
        exact ⟨k',hk',A.entryAddress_tableEntry (h.lt_tables hk')⟩
      · rw [hword.2 hc] at hp
        cases hp

end

end Tree

end X86.Paging
