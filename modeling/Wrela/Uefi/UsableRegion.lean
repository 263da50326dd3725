import Wrela.Arena.Child

/-!
# The search for a usable region

`require_usable_region` goes through the descriptors of the memory map and takes the
first conventional one with room for the region. Addresses are words of 64 bits; the
loop takes a number of turns, and `none` is a search that is still running.
-/

set_option autoImplicit false

namespace Wrela.UsableRegion
open X86 Arenas BitVec
open ChildArenas (PhysicalRegionAuthority)

structure UefiMemoryDescriptor where
  kind : Word
  physicalStart : Word
  numberOfPages : Word

/-- The buffer of the descriptors, its length, and the distance between them. -/
structure UefiMemoryMap where
  descriptors : Word
  length : Word
  descriptorSize : Word

section
variable (m : Mem) (map : UefiMemoryMap) (minBase length align : Word)

/-- The routine adds the size `index` times. -/
def descriptorAt (index : Word) : UefiMemoryDescriptor :=
  let record := map.descriptors+index*map.descriptorSize
  ⟨load m record 4,load m (record+8) 8,load m (record+24) 8⟩

def alignedBase (start : Word) : Word :=
  let aligned := (start+align-1) &&& (0-align)
  if aligned < minBase then (minBase+align-1) &&& (0-align) else aligned

def regionBody : Word × Word → Option (Word × Word ⊕ PhysicalRegionAuthority)
  | (index, offset) =>
    let descriptor := descriptorAt m map index
    let bytes := descriptor.numberOfPages <<< 12
    let aligned := alignedBase minBase align descriptor.physicalStart
    if descriptor.kind = 7 ∧ aligned+length ≤ descriptor.physicalStart+bytes then
      some (.inr ⟨aligned,length,align,1⟩)
    else some (.inl (index+1, offset+map.descriptorSize))

def requireUsableRegion (turns : ℕ) : Option (Except Word PhysicalRegionAuthority) :=
  (WhileLoop.run (fun s => s.2 < map.length) (regionBody m map minBase length align) turns
    (0, 0)).map (Sum.elim (fun _ => .error 0xAC020001) .ok)

end

/-- A map of `n` descriptors, all of them below 2^52. -/
structure Maps (m : Mem) (map : UefiMemoryMap) (n : ℕ) : Prop where
  size : 0 < map.descriptorSize.toNat
  length : map.length.toNat = n*map.descriptorSize.toNat
  below : ∀ i < n, (descriptorAt m map (.ofNat 64 i)).physicalStart.toNat+
    4096*(descriptorAt m map (.ofNat 64 i)).numberOfPages.toNat ≤ 2^52

/-- What is asked for: everything below 2^52, and a power of two as alignment. -/
structure Asked (minBase length align : Word) : Prop where
  minBase_lt : minBase.toNat < 2^52
  length_lt : length.toNat < 2^52
  align_lt : align.toNat < 2^52
  power : align.toNat.isPowerOfTwo

/-- The region at `base` has the right alignment, is not below the least base and is
inside conventional memory that the descriptor describes. -/
structure Holds (d : UefiMemoryDescriptor) (minBase length align : Word) (base : ℕ) : Prop where
  kind : d.kind = 7
  aligned : align.toNat ∣ base
  least : minBase.toNat ≤ base
  start : d.physicalStart.toNat ≤ base
  stop : base+length.toNat ≤ d.physicalStart.toNat+4096*d.numberOfPages.toNat

section
variable {minBase length align : Word} (h : Asked minBase length align)
include h

theorem roundUp_word {start : Word} (hs : start.toNat ≤ 2^52) :
    ((start+align-1) &&& (0-align)).toNat = roundUp start.toNat align.toNat := by
  have halign := h.align_lt
  have hpred := pred_toNat (power_iff.mpr h.power).1
  rw [show start+align-1 = start+(align-1) by bv_omega, show 0-align = -align from zero_sub _]
  exact @next_toNat ⟨0,0,start⟩ _ h.power (by rw [Carries, hpred]; dsimp only; omega)

theorem alignedBase_toNat {start : Word} (hs : start.toNat ≤ 2^52) :
    (alignedBase minBase align start).toNat = roundUp (max start.toNat minBase.toNat) align.toNat := by
  have hpos := Nat.pos_of_isPowerOfTwo h.power
  have hstart := le_roundUp start.toNat hpos
  have hmax := le_roundUp (max start.toNat minBase.toNat) hpos
  rw [alignedBase]
  split_ifs with hbelow <;> rw [lt_def, roundUp_word h hs] at hbelow
  · rw [roundUp_word h h.minBase_lt.le, Nat.max_eq_right (by omega)]
  · rw [roundUp_word h hs]
    exact le_antisymm (roundUp_le_of_dvd hpos (dvd_roundUp _ _) (by omega))
      (roundUp_le_of_dvd hpos (dvd_roundUp _ _) (by omega))

variable {d : UefiMemoryDescriptor} (hd : d.physicalStart.toNat+4096*d.numberOfPages.toNat ≤ 2^52)
include hd

/-- The test of the loop is whether the descriptor holds a region at all, and it then
holds the one at the rounded base. -/
theorem test_iff : (d.kind = 7 ∧ alignedBase minBase align d.physicalStart+length ≤
      d.physicalStart+d.numberOfPages <<< 12 ↔
      Holds d minBase length align (alignedBase minBase align d.physicalStart).toNat) ∧
    ∀ base, Holds d minBase length align base →
      Holds d minBase length align (alignedBase minBase align d.physicalStart).toNat := by
  have hpos := Nat.pos_of_isPowerOfTwo h.power
  have hle := le_roundUp (max d.physicalStart.toNat minBase.toNat) hpos
  have hlt : roundUp _ align.toNat ≤ max d.physicalStart.toNat minBase.toNat+(align.toNat-1) :=
    Nat.div_mul_le_self _ _
  obtain ⟨hmin,hlength,halign,-⟩ := id h
  have hpages : (d.numberOfPages <<< 12).toNat = 4096*d.numberOfPages.toNat := by
    rw [toNat_shiftLeft, Nat.shiftLeft_eq, Nat.mul_comm, Nat.mod_eq_of_lt (by omega)]
  rw [le_def, toNat_add, toNat_add, hpages, alignedBase_toNat h (by omega),
    Nat.mod_eq_of_lt (by omega), Nat.mod_eq_of_lt (by omega)]
  refine ⟨⟨fun ⟨hkind,hstop⟩ => ⟨hkind,dvd_roundUp _ _,by omega,by omega,hstop⟩,
    fun hb => ⟨hb.kind,hb.stop⟩⟩,fun base hb => ?_⟩
  have := roundUp_le_of_dvd hpos hb.aligned (Nat.max_le.mpr ⟨hb.start,hb.least⟩)
  exact ⟨hb.kind,dvd_roundUp _ _,by omega,by omega,le_trans (Nat.add_le_add_right this _) hb.stop⟩

end

section
variable {m : Mem} {map : UefiMemoryMap} {n : ℕ} {minBase length align : Word}

/-- What the search is to give: a region that a descriptor holds, or the panic if
there is none. -/
def Answers (m : Mem) (map : UefiMemoryMap) (n : ℕ) (minBase length align : Word) :
    Except Word PhysicalRegionAuthority → Prop
  | .ok region => region.length = length ∧ region.align = align ∧
    ∃ i < n, Holds (descriptorAt m map (.ofNat 64 i)) minBase length align region.base.toNat
  | .error code => code = 0xAC020001 ∧
    ∀ i < n, ∀ base, ¬ Holds (descriptorAt m map (.ofNat 64 i)) minBase length align base

/-- From the descriptor `i` on; the ones before it hold no region. -/
theorem search_from (hmap : Maps m map n) (h : Asked minBase length align) {i : ℕ} (hi : i ≤ n)
    (hnone : ∀ j < i, ∀ base, ¬ Holds (descriptorAt m map (.ofNat 64 j)) minBase length align base) :
    ∃ result, (WhileLoop.run (fun s => s.2 < map.length) (regionBody m map minBase length align)
      (n-i+1) (.ofNat 64 i, .ofNat 64 (i*map.descriptorSize.toNat))).map
        (Sum.elim (fun _ => .error 0xAC020001) .ok) = some result ∧
      Answers m map n minBase length align result := by
  have hcond : BitVec.ofNat 64 (i*map.descriptorSize.toNat) < map.length ↔ i < n := by
    rw [lt_def, toNat_ofNat, Nat.mod_eq_of_lt, hmap.length, Nat.mul_lt_mul_right hmap.size]
    exact lt_of_le_of_lt (hmap.length ▸ Nat.mul_le_mul_right _ hi) map.length.isLt
  rw [WhileLoop.run]
  simp only [hcond, decide_eq_true_eq]
  split_ifs with hlt
  · obtain ⟨htest,hrounded⟩ := test_iff h (hmap.below i hlt)
    rw [regionBody]
    split_ifs with hholds
    · exact ⟨_,rfl,rfl,rfl,i,hlt,htest.mp hholds⟩
    · have hnext := search_from hmap h (i := i+1) hlt fun j hj base hb => ?_
      · rw [Nat.succ_mul, ofNat_add, ofNat_add, ofNat_toNat, setWidth_eq,
          show n-(i+1)+1 = n-i by omega] at hnext
        exact hnext
      · rcases Nat.lt_succ_iff_lt_or_eq.mp hj with hj | rfl
        · exact hnone j hj base hb
        · exact hholds (htest.mpr (hrounded base hb))
  · exact ⟨_,rfl,rfl,fun j hj => hnone j (by omega)⟩
termination_by n-i

/-- The search ends, with a region that a descriptor of the map holds or with the
panic if no descriptor holds one. -/
theorem usable_region_exact (hmap : Maps m map n) (h : Asked minBase length align) :
    ∃ result, requireUsableRegion m map minBase length align (n+1) = some result ∧
      Answers m map n minBase length align result := by
  have hsearch := search_from hmap h (Nat.zero_le n) fun j hj => absurd hj (Nat.not_lt_zero j)
  rwa [Nat.zero_mul] at hsearch

end

/-- Three descriptors of 48 bytes: a page of loader code, one page of usable memory
at `0x3800` and sixteen pages of it at `0x5000`. -/
def threeDescriptors : Mem := fun a =>
  if a = 0 then 1 else if a = 24 then 1
  else if a = 48 then 7 else if a = 56 then 0x3800 else if a = 72 then 1
  else if a = 96 then 7 else if a = 104 then 0x5000 else if a = 120 then 16 else 0

theorem usable_region_third : ∃ result,
    requireUsableRegion threeDescriptors ⟨0,144,48⟩ 0x1000 0x2000 0x1000 4 = some result ∧
      Answers threeDescriptors ⟨0,144,48⟩ 3 0x1000 0x2000 0x1000 result :=
  usable_region_exact ⟨by decide,by decide,by decide⟩ ⟨by decide,by decide,by decide,12,rfl⟩

end Wrela.UsableRegion
