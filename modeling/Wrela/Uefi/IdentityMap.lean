import Wrela.Uefi.PagingLoops

/-!
# The identity map of the owned hardware

A call of `build_identity_paging` on a memory map and a region, with an arena
that has room for the tables: the tables it builds translate the first 4 GiB, the
pages of the descriptors below 512 GiB and the region to themselves.
-/

set_option autoImplicit false

namespace Wrela.IdentityPaging
open X86 X86.Paging BitVec Finset

def tablesFor (pages : Finset ℕ) : Finset (ℕ × ℕ) :=
  {(3, 0)} ∪ pages.image (fun p => (2, p/512/512)) ∪ pages.image (fun p => (1, p/512))

variable {p : ℕ}

theorem mem_tablesFor {pages : Finset ℕ} (h : p ∈ pages) :
    (2, p/512/512) ∈ tablesFor pages ∧ (1, p/512) ∈ tablesFor pages :=
  ⟨mem_union_left _ (mem_union_right _ (mem_image_of_mem _ h)),
    mem_union_right _ (mem_image_of_mem _ h)⟩

/-- Pages of the first GiBs take a table for each besides the two above them. -/
theorem card_tablesFor_le {pages : Finset ℕ} {n : ℕ} (hn : n ≤ 512)
    (h : ∀ p ∈ pages, p < 512*n) : (tablesFor pages).card ≤ n+2 := by
  have hsub : tablesFor pages ⊆ {(3, 0), (2, 0)} ∪ (Finset.range n).image (1, ·) := by
    intro x hx
    simp only [tablesFor, mem_union, mem_singleton, mem_image] at hx
    simp only [mem_union, mem_insert, mem_singleton, mem_image, mem_range]
    obtain (rfl | ⟨p,hp,rfl⟩) | ⟨p,hp,rfl⟩ := hx
    · exact .inl (.inl rfl)
    · have := h p hp
      exact .inl (.inr (Prod.ext rfl (by simp only; omega)))
    · have := h p hp
      exact .inr ⟨p/512,by omega,rfl⟩
  calc (tablesFor pages).card
      ≤ ({(3, 0), (2, 0)} ∪ (Finset.range n).image (1, ·) : Finset (ℕ × ℕ)).card :=
        card_le_card hsub
    _ ≤ ({(3, 0), (2, 0)} : Finset (ℕ × ℕ)).card+((Finset.range n).image (1, ·)).card :=
        card_union_le _ _
    _ ≤ 2+n := Nat.add_le_add card_le_two (card_image_le.trans (by simp))
    _ = n+2 := Nat.add_comm _ _

structure Call where
  mem : Mem
  object : Word
  memoryMap : Word
  mmio : Word
  descriptors : List (Word × Word)

namespace Call
variable (c : Call) {turns : ℕ}

def arenaBase : Word := load c.mem c.object 8
def arenaLength : Word := load c.mem (c.object+8) 8
def nextOffset : Word := load c.mem (c.object+16) 8

def bytes : Word := load c.mem c.memoryMap 8
def buffer : Word := load c.mem c.bytes 8
def bufferLength : Word := load c.mem (c.bytes+8) 8
def descriptorSize : Word := load c.mem (c.memoryMap+8) 8

def mmioBase : Word := load c.mem c.mmio 8
def mmioLength : Word := load c.mem (c.mmio+8) 8

def root : Word := (c.nextOffset+c.arenaBase+4095) &&& 0xfffffffffffff000

def pages : Finset ℕ :=
  Finset.Ico 0 2048 ∪ mapChunks c.descriptors ∪ mmioChunks c.mmioBase (c.mmioBase+c.mmioLength)

def tables : Finset (ℕ × ℕ) := tablesFor c.pages

/-- The records and the map are what they are said to be, the arena has room for
the tables, and nothing that the routine reads lies where the tables will be. -/
structure Ready (c : Call) : Prop where
  arena : c.arenaBase.toNat+c.arenaLength.toNat ≤ 2^52
  room : (c.arenaBase.toNat+c.nextOffset.toNat+4095)/4096*4096+4096*c.tables.card ≤
    c.arenaBase.toNat+c.arenaLength.toNat
  map : MapAt c.mem c.buffer c.descriptorSize c.descriptors
  length : c.bufferLength.toNat = c.descriptorSize.toNat*c.descriptors.length
  base_ne : c.mmioBase ≠ 0
  region : c.mmioBase.toNat+c.mmioLength.toNat < 2^47
  object_apart : Disjoint c.object 24 c.root (4096*c.tables.card)
  memoryMap_apart : Disjoint c.memoryMap 16 c.root (4096*c.tables.card)
  bytes_apart : Disjoint c.bytes 16 c.root (4096*c.tables.card)
  buffer_apart : Disjoint c.buffer (c.descriptorSize.toNat*c.descriptors.length) c.root
    (4096*c.tables.card)
  mmio_apart : Disjoint c.mmio 16 c.root (4096*c.tables.card)

variable {c} (h : c.Ready)
include h

theorem root_toNat : c.root.toNat = (c.arenaBase.toNat+c.nextOffset.toNat+4095)/4096*4096 := by
  have ha := h.arena
  have hr := h.room
  have h4095 : (4095 : Word).toNat = 4095 := rfl
  rw [root, page_mask_toNat, toNat_add, toNat_add, h4095]
  omega

def area : Area where
  start := c.root
  tables := c.tables.card
  aligned := by
    rw [root_toNat h]
    omega
  bound := by
    have ha := h.arena
    have hr := h.room
    rw [root_toNat h]
    omega

theorem frame : Frame (area h) c.tables c.object where
  room := le_refl _
  apart x hx := h.object_apart x (hx.mono (by omega))

omit h in
theorem page_tables (hp : p ∈ c.pages) : (2, p/512/512) ∈ c.tables ∧ (1, p/512) ∈ c.tables :=
  mem_tablesFor hp

omit h in
theorem low_mem_pages (hp : p < 2048) : p ∈ c.pages :=
  mem_union_left _ (mem_union_left _ (by simp only [mem_Ico]; omega))

omit h in
theorem low_tables {i : ℕ} (hi : i < 4) : (2, 0) ∈ c.tables ∧ (1, i) ∈ c.tables := by
  obtain ⟨h2,h1⟩ := mem_tablesFor (low_mem_pages (c := c) (p := 512*i) (by omega))
  rw [show 512*i/512/512 = 0 by omega] at h2
  rw [show 512*i/512 = i by omega] at h1
  exact ⟨h2,h1⟩

theorem built_root :
    Built (area h) c.tables c.mem c.object
      ⟨store (zeroLoop 1024 c.mem c.root) c.root 8 (c.root+4096+3),
        c.root-c.arenaBase+4096+4096⟩ (lowNodes 0) (Finset.Ico 0 0) := by
  have htwo : 1 < c.tables.card :=
    one_lt_card.mpr ⟨_,(low_tables (c := c) (i := 0) (by omega)).1,_,
      (low_tables (c := c) (i := 0) (by omega)).2,by simp⟩
  have hbound : 8*(512*c.tables.card) ≤ 2^64 := (area h).words_bound
  have hslot : slot c.root 0 = c.root := BitVec.add_zero _
  have hzero (i : ℕ) (hi : i < 1024) : load (zeroLoop 1024 c.mem c.root) (slot c.root i) 8 = 0 := by
    have hload : load (zeroLoop 1024 c.mem (slot c.root 0)) (slot c.root i) 8 = _ :=
      load_zeroLoop hbound (by omega) (by omega)
    rwa [hslot, if_pos (by omega)] at hload
  have hne (i : ℕ) (hi : i < 1024) (h0 : i ≠ 0) :
      load (store (zeroLoop 1024 c.mem c.root) c.root 8 (c.root+4096+3)) (slot c.root i) 8 = 0 := by
    have hload : load (store (zeroLoop 1024 c.mem c.root) (slot c.root 0) 8 (c.root+4096+3))
        (slot c.root i) 8 = _ := load_store_slot_ne hbound (by omega) (by omega) h0.symm
    rwa [hslot, hzero i hi] at hload
  have htree := Tree.empty (A := area h) (by exact Nat.lt_of_succ_lt htwo)
    fun j hj => hzero j (by omega)
  refine ⟨?_,rfl,?_,?_,?_⟩
  · refine htree.grow (k := 0) (c := 0) (by omega) rfl (by simp) htwo ?_ ?_ ?_
      (Finset.Subset.refl _) fun p hp => .inl hp
    · have hlink : load (store (zeroLoop 1024 c.mem c.root) (slot c.root 0) 8 (c.root+4096+3))
          (slot c.root 0) 8 = c.root+4096+3 := load_store_slot
      rw [Nat.zero_mod, Area.tableEntry, List.length_singleton, table_succ, (area h).table_zero,
        show (area h).start = c.root from rfl]
      rwa [hslot] at hlink ⊢
    · intro i hi h0
      have hi : i < 512 := by simpa using hi
      exact (hne i (by omega) (by simpa using h0)).trans (hzero i (by omega)).symm
    · intro j hj
      have htable : slot ((area h).table [(3, 0)].length) j = slot c.root (512+j) := slot_slot
      rw [if_neg (by simp), htable]
      exact hne (512+j) (by omega) (by omega)
  · change c.arenaBase+(c.root-c.arenaBase+4096+4096) = slot c.root (512*2)
    rw [slot]
    bv_omega
  · intro x hx
    have hx : ¬ InRange x c.root (4096*c.tables.card) := hx
    have hstored : ¬ InRange x c.root 8 := fun hs => hx (hs.mono (by omega))
    refine (store_outside hstored).trans (zeroLoop_outside fun hs => hx (hs.mono ?_))
    omega
  · intro n hn
    have hn : n = (3, 0) ∨ n = (2, 0) := by simpa [lowNodes] using hn
    rcases hn with rfl | rfl
    · exact mem_union_left _ (mem_union_left _ (mem_singleton_self _))
    · exact (low_tables (show 0 < 4 by omega)).1

theorem build_spec (hturns : 2^64 ≤ turns) :
    ∃ t nodes, buildIdentityPaging turns c.mem c.object c.memoryMap c.mmio =
        some (store t.mem (c.object+16) 8 t.next, c.root) ∧
      Built (area h) c.tables c.mem c.object t nodes c.pages := by
  have hF := frame h
  have hpdpt : (area h).table 1 = c.root+4096 := by
    rw [table_succ, (area h).table_zero]
    rfl
  have hroot : (area h).table 0 = c.root := (area h).table_zero
  obtain ⟨t₁,hlow,h₁⟩ := mapLow_spec hturns (built_root h) hF fun i hi => (low_tables hi).2
  -- what the routine reads lies outside the tables
  have hbytes : load t₁.mem c.memoryMap 8 = c.bytes :=
    h₁.load_outside fun x hx => h.memoryMap_apart x (hx.mono (by omega))
  have hbuffer : load t₁.mem c.bytes 8 = c.buffer :=
    h₁.load_outside fun x hx => h.bytes_apart x (hx.mono (by omega))
  have hlength : load t₁.mem (c.bytes+8) 8 = c.bufferLength :=
    h₁.load_outside fun x hx => h.bytes_apart x (InRange.shift (k := 8) hx (by omega))
  have hsize : load t₁.mem (c.memoryMap+8) 8 = c.descriptorSize :=
    h₁.load_outside fun x hx => h.memoryMap_apart x (InRange.shift (k := 8) hx (by omega))
  have hlast : (c.bufferLength+c.buffer).toNat =
      c.buffer.toNat+c.descriptorSize.toNat*c.descriptors.length := by
    have := h.map.bound
    rw [toNat_add, h.length]
    omega
  obtain ⟨t₂,nodes₂,hmap,h₂⟩ := mapDescriptors_spec hturns h₁ hF h.map h.buffer_apart
    (fun p hp => (page_tables (mem_union_left _ (mem_union_right _ hp))).2) hlast
  have hbase : load t₂.mem c.mmio 8 = c.mmioBase :=
    h₂.load_outside fun x hx => h.mmio_apart x (hx.mono (by omega))
  have hmmio : load t₂.mem (c.mmio+8) 8 = c.mmioLength :=
    h₂.load_outside fun x hx => h.mmio_apart x (InRange.shift (k := 8) hx (by omega))
  obtain ⟨t₃,nodes₃,hregion,h₃⟩ := mapMmio_spec hturns h₂ hF hbase hmmio h.base_ne h.region
    fun p hp => page_tables (mem_union_right _ hp)
  rw [hpdpt] at hlow hmap
  rw [hroot] at hregion
  refine ⟨t₃,nodes₃,?_,h₃⟩
  have hlow' : mapLow turns c.object (c.root+4096) ⟨store (zeroLoop 1024 c.mem c.root) c.root 8
      (c.root+4096+3),c.root-load c.mem c.object 8+4096+4096⟩ = some t₁ := hlow
  have hroot' : (load c.mem (c.object+16) 8+load c.mem c.object 8+4095) &&& 0xfffffffffffff000 =
      c.root := rfl
  rw [buildIdentityPaging]
  simp only [hroot']
  rw [hlow', Option.bind_some]
  simp only [hbytes, hbuffer, hlength, hsize, hmap, Option.bind_some, hregion]

/-- The memory after the call and the tree in it. The next offset is behind the
last table. -/
theorem build_tree (hturns : 2^64 ≤ turns) :
    ∃ m nodes, buildIdentityPaging turns c.mem c.object c.memoryMap c.mmio = some (m, c.root) ∧
      Tree (area h) m nodes c.pages ∧
      c.arenaBase.toNat+(load m (c.object+16) 8).toNat = c.root.toNat+4096*nodes.length := by
  obtain ⟨t,nodes,hbuild,hb⟩ := build_spec h hturns
  have ha := (area h).bound
  have hfits := hb.tree.fits
  refine ⟨_,nodes,hbuild,hb.tree.frame fun i hi => ?_,?_⟩
  · refine load_store_other fun x hx hx' => ?_
    exact h.object_apart x (InRange.shift (k := 16) hx' (by omega)) (slot_inside hi hx)
  · have hnext : c.arenaBase+t.next = slot c.root (512*nodes.length) := hb.next
    have hle : 4096*nodes.length ≤ 4096*c.tables.card := Nat.mul_le_mul_left _ hfits
    have hroom := h.room
    have harena := h.arena
    have hroot := root_toNat h
    rw [load_store _ (by omega), lowBytes_eight]
    have hnat : (c.arenaBase+t.next).toNat = c.root.toNat+4096*nodes.length := by
      rw [hnext, slot, toNat_add, toNat_ofNat]
      omega
    rw [toNat_add] at hnat
    have := t.next.isLt
    omega

omit h in
/-- The addresses that the map is for. A descriptor stands for whole 4 KiB pages,
from the one that holds its first byte. -/
def Wanted (c : Call) (a : ℕ) : Prop :=
  a < 2^32 ∨
  (a < 2^39 ∧ ∃ d ∈ c.descriptors, d.1.toNat/4096*4096 ≤ a ∧
    a < d.1.toNat/4096*4096+4096*d.2.toNat) ∨
  (c.mmioBase.toNat ≤ a ∧ a < c.mmioBase.toNat+c.mmioLength.toNat)

theorem wanted_page {a : ℕ} (ha : c.Wanted a) : a < 2^47 ∧ a/2^21 ∈ c.pages := by
  have hregion := h.region
  obtain hlow | ⟨hlt,d,hd,hge,hd'⟩ | ⟨hge,hlt⟩ := ha
  · exact ⟨by omega,low_mem_pages (by omega)⟩
  · have hcount : d.2 ≠ 0 := by
      intro h0
      rw [h0] at hd'
      simp at hd'
      omega
    refine ⟨by omega,mem_union_left _ (mem_union_right _ ?_)⟩
    refine mem_mapChunks.mpr ⟨d,hd,?_⟩
    rw [descriptorChunks, if_neg hcount, chunks, mem_Ico]
    omega
  · have hlast : (c.mmioBase+c.mmioLength).toNat = c.mmioBase.toNat+c.mmioLength.toNat := by
      rw [toNat_add]
      omega
    refine ⟨by omega,mem_union_right _ ?_⟩
    rw [mmioChunks, if_pos (by omega), mem_Ico]
    omega

end Call

/-- The walk from the returned root maps every address the map is for to itself,
present and writable. Every table that a walk can go through is page aligned, lies
in the arena between the old and the new offset, and shares no byte with another. -/
theorem identity_paging (c : Call) (h : c.Ready) {turns : ℕ} (hturns : 2^64 ≤ turns) :
    ∃ m, buildIdentityPaging turns c.mem c.object c.memoryMap c.mmio = some (m, c.root) ∧
      (∀ v : Word, c.Wanted v.toNat → walk m c.root v = some ⟨v,true⟩) ∧
      (∀ ℓ q t, TableAt m c.root ℓ q t → t.toNat%4096 = 0 ∧
        c.arenaBase.toNat+c.nextOffset.toNat ≤ t.toNat ∧
        t.toNat+4096 ≤ c.arenaBase.toNat+(load m (c.object+16) 8).toNat) ∧
      (∀ ℓ q t ℓ' q' t', TableAt m c.root ℓ q t → TableAt m c.root ℓ' q' t' →
        (ℓ, q) ≠ (ℓ', q') → Disjoint t 4096 t' 4096) ∧
      (load m (c.object+16) 8).toNat ≤ c.arenaLength.toNat := by
  obtain ⟨m,nodes,hbuild,htree,hoffset⟩ := Call.build_tree h hturns
  have hroot := Call.root_toNat h
  refine ⟨m,hbuild,?_,?_,?_,?_⟩
  · intro v hv
    obtain ⟨hlt,hp⟩ := Call.wanted_page h hv
    exact (htree.walk_eq hlt).trans (if_pos hp)
  · intro ℓ q t ht
    obtain ⟨k,hk,rfl⟩ := htree.tableAt ht
    have hlt := htree.lt_tables hk
    have hlen := (List.getElem?_eq_some_iff.mp hk).1
    have hnat : ((Call.area h).table k).toNat = c.root.toNat+4096*k := (Call.area h).table_toNat hlt
    refine ⟨(Call.area h).table_aligned hlt,?_,?_⟩
    · omega
    · omega
  · intro ℓ q t ℓ' q' t' ht ht' hne
    obtain ⟨k,hk,rfl⟩ := htree.tableAt ht
    obtain ⟨k',hk',rfl⟩ := htree.tableAt ht'
    refine (Call.area h).table_disjoint (htree.lt_tables hk) (htree.lt_tables hk') ?_
    rintro rfl
    exact hne (Option.some.inj (hk.symm.trans hk'))
  · have hfits : 4096*nodes.length ≤ 4096*c.tables.card := Nat.mul_le_mul_left _ htree.fits
    have hroom := h.room
    omega

/-- The records of a call with one descriptor of one page and the I/O APIC as the
region. The arena has room for sixteen tables. -/
def sampleWords (start : Word) : List (ℕ × ℕ × Word) :=
  [(0x3008, 8, 0x1000), (0x3000, 8, 0xFEC00000), (0x2218, 8, 1), (0x2208, 8, start),
    (0x2108, 8, 40), (0x2100, 8, 0x2200), (0x2008, 8, 40), (0x2000, 8, 0x2100),
    (0x1010, 8, 0), (0x1008, 8, 0x10000), (0x1000, 8, 0x100000)]

def sampleCall (start : Word) : Call where
  mem := storeAll 0#64 (fun _ => 0) (sampleWords start)
  object := 0x1000
  memoryMap := 0x2000
  mmio := 0x3000
  descriptors := [(start, 1)]

section
variable {start : Word} (h : start = 0x100000000 ∨ start = 0x1001FF800)
include h

theorem sample_read : (sampleCall start).arenaBase = 0x100000 ∧
    (sampleCall start).arenaLength = 0x10000 ∧ (sampleCall start).nextOffset = 0 ∧
    (sampleCall start).bytes = 0x2100 ∧ (sampleCall start).buffer = 0x2200 ∧
    (sampleCall start).bufferLength = 40 ∧ (sampleCall start).descriptorSize = 40 ∧
    (sampleCall start).mmioBase = 0xFEC00000 ∧ (sampleCall start).mmioLength = 0x1000 ∧
    load (sampleCall start).mem 0x2208 8 = start ∧ load (sampleCall start).mem 0x2218 8 = 1 ∧
    start.toNat/2^21 = 2048 := by
  obtain rfl | rfl := h <;> decide +kernel

theorem sample_pages : (sampleCall start).pages = Finset.Ico 0 2049 := by
  obtain ⟨-,-,-,-,-,-,-,hmmio,hmmioLength,-,-,hpage⟩ := sample_read h
  have hchunks : mapChunks [(start, 1)] = Finset.Ico 2048 2049 := by
    ext p
    rw [mem_mapChunks]
    simp only [List.mem_singleton, exists_eq_left, descriptorChunks, chunks, hpage]
    rw [if_neg (by decide), mem_Ico, mem_Ico, show (1 : Word).toNat = 1 from rfl]
    omega
  have hregion : mmioChunks 0xFEC00000 (0xFEC00000+0x1000) = Finset.Ico 2038 2039 := by
    decide
  rw [Call.pages, hmmio, hmmioLength, hregion, show (sampleCall start).descriptors = [(start, 1)]
    from rfl, hchunks]
  ext p
  simp only [mem_union, mem_Ico]
  omega

theorem sample_ready : (sampleCall start).Ready := by
  obtain ⟨hbase,hlength,hoffset,hbytes,hbuffer,hbufferLength,hsize,hmmio,hmmioLength,hstart,hone,
    hpage⟩ := sample_read h
  have hcard : (sampleCall start).tables.card ≤ 7 :=
    card_tablesFor_le (show 5 ≤ 512 by omega) fun p hp => by
      rw [sample_pages h, mem_Ico] at hp
      omega
  have hroot : (sampleCall start).root = 0x100000 := by
    rw [Call.root, hoffset, hbase]
    rfl
  have happart (a : Word) (n : ℕ) (ha : Apart a n 0x100000 (4096*7)) :
      Disjoint a n (sampleCall start).root (4096*(sampleCall start).tables.card) := by
    rw [hroot]
    exact fun x hx hx' => ha.disjoint x hx (hx'.mono (Nat.mul_le_mul_left _ hcard))
  have hdescriptor {i : ℕ} {d : Word × Word} (hd : [(start, (1 : Word))][i]? = some d) :
      i = 0 ∧ d = (start, 1) := by
    rw [List.getElem?_singleton] at hd
    split_ifs at hd with hi
    exact ⟨hi,(Option.some.inj hd).symm⟩
  refine ⟨?_,?_,?_,?_,?_,?_,?_,?_,?_,?_,?_⟩
  · rw [hbase, hlength]
    decide
  · rw [hbase, hlength, hoffset]
    refine Nat.le_trans (Nat.add_le_add_left (Nat.mul_le_mul_left _ hcard) _) ?_
    decide
  · rw [hbuffer, hsize]
    refine ⟨by decide,?_,?_,?_,?_⟩
    · exact (by decide : (0x2200 : Word).toNat+(40 : Word).toNat*1 < 2^63)
    · intro i d hd
      obtain ⟨rfl,rfl⟩ := hdescriptor hd
      exact hstart
    · intro i d hd
      obtain ⟨rfl,rfl⟩ := hdescriptor hd
      exact hone
    · intro d hd
      obtain rfl : d = (start, 1) := List.mem_singleton.mp hd
      simp only [show (1 : Word).toNat = 1 from rfl]
      omega
  · rw [hbufferLength, hsize]
    rfl
  · rw [hmmio]
    decide
  · rw [hmmio, hmmioLength]
    decide
  · exact happart 0x1000 24 (by decide)
  · exact happart 0x2000 16 (by decide)
  · rw [hbytes]
    exact happart 0x2100 16 (by decide)
  · rw [hbuffer, hsize]
    exact happart 0x2200 40 (by decide)
  · exact happart 0x3000 16 (by decide)

end

/-- The last byte of a descriptor's page at 4 GiB. -/
theorem identity_paging_sample :
    (sampleCall 0x100000000).Ready ∧
    ∃ m, buildIdentityPaging (2^64) (sampleCall 0x100000000).mem 0x1000 0x2000 0x3000 =
        some (m, (sampleCall 0x100000000).root) ∧
      walk m (sampleCall 0x100000000).root 0x100000FFF = some ⟨0x100000FFF,true⟩ := by
  have hready : (sampleCall 0x100000000).Ready := sample_ready (by decide)
  obtain ⟨m,hbuild,hwalk,-⟩ := identity_paging (sampleCall 0x100000000) hready (le_refl _)
  refine ⟨hready,m,hbuild,hwalk _ (.inr (.inl ⟨by decide,(0x100000000, 1),?_,by decide⟩))⟩
  exact List.mem_singleton_self _

/-- A descriptor that does not begin on a page boundary: its last 2 KiB are in the
next 2 MiB page, which is not mapped. -/
theorem unaligned_descriptor_fault :
    (sampleCall 0x1001FF800).Ready ∧ (0x1001FF800, 1) ∈ (sampleCall 0x1001FF800).descriptors ∧
    0x1001FF800 ≤ 0x100200000 ∧ 0x100200000 < 0x1001FF800+4096*1 ∧
    ∀ turns ≥ 2^64,
      ∃ m, buildIdentityPaging turns (sampleCall 0x1001FF800).mem 0x1000 0x2000 0x3000 =
          some (m, (sampleCall 0x1001FF800).root) ∧
        walk m (sampleCall 0x1001FF800).root 0x100200000 = none := by
  have hready : (sampleCall 0x1001FF800).Ready := sample_ready (by decide)
  refine ⟨hready,List.mem_singleton_self _,by decide,by decide,fun turns hturns => ?_⟩
  obtain ⟨m,nodes,hbuild,htree,-⟩ := Call.build_tree hready hturns
  have hpage : (0x100200000 : Word).toNat/2^21 ∉ (sampleCall 0x1001FF800).pages := by
    rw [sample_pages (by decide), mem_Ico]
    decide
  exact ⟨m,hbuild,(htree.walk_eq (by decide)).trans (if_neg hpage)⟩

end Wrela.IdentityPaging
