import Wrela.Ir.Layout
import Mathlib.Data.Nat.Bitwise

/-!
# Bump arithmetic

What the emitted code computes on the three words of an arena or a frame: a
request rounds the offset up to the alignment and takes the bytes behind it, a
frame takes the bytes at the offset as they are. A request that is refused is
`none`; the code then calls the out-of-memory routine.
-/

set_option autoImplicit false

namespace Wrela.Arenas
open X86 Ir Option BitVec Nat

/-- How the receiver of a call is read: a name stands for the object itself, but a
field of a `data` value is copied by the read, and the call works on the copy. -/
inductive Receiver where
  | named
  | field
deriving DecidableEq

/-- The object of a receiver after a call that takes it from `before` to `after`. -/
def Receiver.left {α : Type} (before after : α) : Receiver → α
  | named => after
  | field => before

/-- The fields of `ExecutorMemory` and of `ArenaFrame`. -/
structure Arena where
  arenaBase : Word
  arenaLength : Word
  nextOffset : Word
  deriving DecidableEq, Repr

def Carries (a b : Word) : Prop := 2^64 ≤ a.toNat+b.toNat

instance (a b : Word) : Decidable (Carries a b) := inferInstanceAs (Decidable (_ ≤ _))

def arenaBump (arena : Arena) (length align : Word) : Option (Word × Arena) :=
  if align = 0 then none
  else if (align-1) &&& align ≠ 0 then none
  else if Carries arena.nextOffset (align-1) then none
  else
    let next := (arena.nextOffset+(align-1)) &&& -align
    let end' := next+length
    if Carries next length then none
    else if arena.arenaLength.toNat < end'.toNat then none
    else if Carries arena.arenaBase next then none
    else some (arena.arenaBase+next, {arena with nextOffset := end'})

/-- The frame opened, and the parent behind it; the parent's offset before is
saved by the caller. -/
def frameBegin (parent : Arena) (length : Word) : Option (Arena × Arena) :=
  let saved := parent.nextOffset
  let end' := saved+length
  if Carries saved length then none
  else if parent.arenaLength.toNat < end'.toNat then none
  else if Carries parent.arenaBase saved then none
  else some (⟨parent.arenaBase+saved,length,0⟩, {parent with nextOffset := end'})

def frameEnd (parent : Arena) (saved : Word) : Arena := {parent with nextOffset := saved}

/-- The high half of the product is checked. -/
def unsignedMul (dst rhs : Word) : Option Word :=
  if BitVec.ofNat 64 (dst.toNat*rhs.toNat/2^64) = 0 then some (BitVec.ofNat 64 (dst.toNat*rhs.toNat))
  else none

inductive Request where
  | reserve (length align : Word)
  | reserveArray (element : Ty) (count : Word) (align : Option Word)
  | place (type : Ty)

namespace Request

def elementStorageSize (element : Ty) : ℕ := if element.storageSize = 0 then 1 else element.storageSize

def typeAlign (type : Ty) : ℕ := if type.info.align = 0 then 8 else type.info.align

def align : Request → Word
  | reserve _ align => align
  | reserveArray element _ align => align.getD (BitVec.ofNat 64 (typeAlign element))
  | place type => BitVec.ofNat 64 (typeAlign type)

def length : Request → Option Word
  | reserve length _ => some length
  | reserveArray element count _ => unsignedMul count (BitVec.ofNat 64 (elementStorageSize element))
  | place type => some (BitVec.ofNat 64 type.storageSize)

def bytes : Request → ℕ
  | reserve length _ => length.toNat
  | reserveArray element count _ => count.toNat*(BitVec.ofNat 64 (elementStorageSize element)).toNat
  | place type => (BitVec.ofNat 64 type.storageSize).toNat

def serve (r : Request) (arena : Arena) : Option (Word × Arena) :=
  r.length.bind fun length => arenaBump arena length r.align

end Request

theorem add_toNat_of_not_carries {a b : Word} (h : ¬ Carries a b) :
    (a+b).toNat = a.toNat+b.toNat := by
  rw [Carries, not_le] at h
  rw [toNat_add, mod_eq_of_lt h]

theorem pred_toNat {a : Word} (h : a ≠ 0) : (a-1).toNat = a.toNat-1 := by
  have : a.toNat ≠ 0 := fun h0 => h (eq_of_toNat_eq h0)
  have := a.isLt
  rw [toNat_sub, show (1 : Word).toNat = 1 from rfl]
  omega

variable {align length : Word} {k a : ℕ} {parent : Arena}

theorem power_iff : align ≠ 0 ∧ (align-1) &&& align = 0 ↔ align.toNat.isPowerOfTwo := by
  rw [← ne_zero_and_sub_one_eq_zero_iff_isPowerOfTwo]
  constructor
  · rintro ⟨h0,h⟩
    refine ⟨fun hz => h0 (eq_of_toNat_eq hz),?_⟩
    have := congrArg BitVec.toNat h
    rwa [toNat_and, pred_toNat h0, Nat.and_comm] at this
  · rintro ⟨h0,h⟩
    have h0' : align ≠ 0 := fun hz => h0 (by rw [hz]; rfl)
    refine ⟨h0',eq_of_toNat_eq ?_⟩
    rw [toNat_and, pred_toNat h0', Nat.and_comm]
    exact h

theorem and_neg_power (x : Word) (hk : align.toNat = 2^k) :
    (x &&& -align).toNat = x.toNat/2^k*2^k := by
  have hlt : k < 64 := by
    have := align.isLt
    rw [hk] at this
    exact (Nat.pow_lt_pow_iff_right (by decide)).mp this
  have h0 : align ≠ 0 := by
    intro h
    rw [h] at hk
    exact absurd hk.symm (Nat.two_pow_pos k).ne'
  have hneg : -align = ~~~(align-1) := by bv_omega
  have hbits : x &&& -align = (x >>> k) <<< k := by
    apply eq_of_getLsbD_eq
    intro i hi
    have hm : (align-1).getLsbD i = decide (i < k) := by
      rw [BitVec.getLsbD, pred_toNat h0, hk, testBit_two_pow_sub_one]
    rw [hneg, getLsbD_and, getLsbD_not, hm, getLsbD_shiftLeft, getLsbD_ushiftRight]
    rcases lt_or_ge i k with h | h
    · simp [h]
    · simp [hi, not_lt.mpr h, Nat.add_sub_cancel' h]
  rw [hbits, toNat_shiftLeft, toNat_ushiftRight, shiftRight_eq_div_pow,
    Nat.shiftLeft_eq, mod_eq_of_lt]
  exact lt_of_le_of_lt (div_mul_le_self _ _) x.isLt

def roundUp (n a : ℕ) : ℕ := (n+(a-1))/a*a

theorem dvd_roundUp (n a : ℕ) : a ∣ roundUp n a := Dvd.intro_left _ rfl

theorem le_roundUp (n : ℕ) (ha : 0 < a) : n ≤ roundUp n a := by
  have := div_add_mod (n+(a-1)) a
  have := mod_lt (n+(a-1)) ha
  rw [roundUp, mul_comm]
  omega

theorem roundUp_zero (ha : 0 < a) : roundUp 0 a = 0 := by
  rw [roundUp, div_eq_of_lt (by omega), Nat.zero_mul]

theorem roundUp_le_of_dvd {n b : ℕ} (ha : 0 < a) (hd : a ∣ b) (h : n ≤ b) : roundUp n a ≤ b := by
  obtain ⟨c,rfl⟩ := hd
  have hq : (n+(a-1))/a ≤ c := by
    rw [← Nat.lt_succ_iff, Nat.div_lt_iff_lt_mul ha, Nat.succ_mul, mul_comm c a]
    omega
  rw [roundUp, mul_comm]
  exact mul_le_mul_left a hq

theorem roundUp_carries {n : ℕ} (hk : k ≤ 64) : 2^64 ≤ n+(2^k-1) ↔ 2^64 ≤ roundUp n (2^k) := by
  have hp := Nat.two_pow_pos k
  have he : (2:ℕ)^64 = 2^(64-k)*2^k := by rw [← Nat.pow_add, Nat.sub_add_cancel hk]
  rw [roundUp]
  constructor
  · intro h
    rw [he] at h ⊢
    exact mul_le_mul_right _ ((le_div_iff_mul_le hp).mpr h)
  · intro h
    exact le_trans h (div_mul_le_self _ _)

/-- A request the arena grants: where its bytes start, counted from the base,
and that they end inside. -/
structure Granted (arena : Arena) (length align address : Word) (after : Arena) : Prop where
  power : align.toNat.isPowerOfTwo
  inside : roundUp arena.nextOffset.toNat align.toNat+length.toNat ≤ arena.arenaLength.toNat
  address_eq : address.toNat =
    arena.arenaBase.toNat+roundUp arena.nextOffset.toNat align.toNat
  after_eq : after = {arena with
    nextOffset := BitVec.ofNat 64 (roundUp arena.nextOffset.toNat align.toNat+length.toNat)}

def Grantable (arena : Arena) (length align : Word) : Prop :=
  align.toNat.isPowerOfTwo ∧
    roundUp arena.nextOffset.toNat align.toNat+length.toNat ≤ arena.arenaLength.toNat ∧
    arena.arenaBase.toNat+roundUp arena.nextOffset.toNat align.toNat < 2^64

section
variable {arena after : Arena} {length align address : Word}

theorem next_toNat (hp : align.toNat.isPowerOfTwo) (hc : ¬ Carries arena.nextOffset (align-1)) :
    ((arena.nextOffset+(align-1)) &&& -align).toNat =
      roundUp arena.nextOffset.toNat align.toNat := by
  obtain ⟨k,hk⟩ := hp
  obtain ⟨h0,-⟩ := power_iff.mpr ⟨k,hk⟩
  rw [and_neg_power _ hk, add_toNat_of_not_carries hc, pred_toNat h0, roundUp, hk]

theorem not_carries_of_roundUp (hp : align.toNat.isPowerOfTwo)
    (h : roundUp arena.nextOffset.toNat align.toNat < 2^64) :
    ¬ Carries arena.nextOffset (align-1) := by
  obtain ⟨k,hk⟩ := hp
  obtain ⟨h0,-⟩ := power_iff.mpr ⟨k,hk⟩
  have hlt : k < 64 := by
    have := align.isLt
    rw [hk] at this
    exact (Nat.pow_lt_pow_iff_right (by decide)).mp this
  rw [Carries, pred_toNat h0, hk, roundUp_carries hlt.le, ← hk]
  exact not_le.mpr h

theorem arenaBump_of_grantable (h : Grantable arena length align) :
    ∃ address after, arenaBump arena length align = some (address, after) ∧
      Granted arena length align address after := by
  obtain ⟨hp,hin,hbase⟩ := h
  have hlen := arena.arenaLength.isLt
  have hc : ¬ Carries arena.nextOffset (align-1) := not_carries_of_roundUp hp (by omega)
  have hnext := next_toNat hp hc
  obtain ⟨h0,hand⟩ := power_iff.mpr hp
  have hend : ¬ Carries ((arena.nextOffset+(align-1)) &&& -align) length := by
    rw [Carries, hnext]
    omega
  have hlim : ¬ arena.arenaLength.toNat <
      (((arena.nextOffset+(align-1)) &&& -align)+length).toNat := by
    rw [add_toNat_of_not_carries hend, hnext]
    omega
  have haddr : ¬ Carries arena.arenaBase ((arena.nextOffset+(align-1)) &&& -align) := by
    rw [Carries, hnext]
    omega
  refine ⟨arena.arenaBase+((arena.nextOffset+(align-1)) &&& -align),
    {arena with nextOffset := ((arena.nextOffset+(align-1)) &&& -align)+length},?_,hp,hin,?_,?_⟩
  · rw [arenaBump, if_neg h0, if_neg (not_not.mpr hand), if_neg hc]
    simp only [if_neg hend, if_neg hlim, if_neg haddr]
  · rw [add_toNat_of_not_carries haddr, hnext]
  · congr 1
    apply eq_of_toNat_eq
    rw [add_toNat_of_not_carries hend, hnext, toNat_ofNat, mod_eq_of_lt (by omega)]

section
variable (h : arenaBump arena length align = some (address, after))
include h

theorem grantable_of_arenaBump : Grantable arena length align := by
  rw [arenaBump] at h
  simp only [ite_none_left_eq_some] at h
  obtain ⟨h0,hand,hc,hend,hlim,haddr,-⟩ := h
  have hp := power_iff.mp ⟨h0,not_not.mp hand⟩
  have hnext := next_toNat hp hc
  rw [add_toNat_of_not_carries hend, hnext] at hlim
  rw [Carries, hnext] at haddr
  exact ⟨hp,by omega,by omega⟩

theorem arenaBump_eq_some : Granted arena length align address after := by
  obtain ⟨address',after',he,hg⟩ := arenaBump_of_grantable (grantable_of_arenaBump h)
  rw [h] at he
  cases he
  exact hg

end

theorem arenaBump_eq_none : arenaBump arena length align = none ↔ ¬ Grantable arena length align := by
  constructor
  · intro h hg
    obtain ⟨_,_,he,-⟩ := arenaBump_of_grantable hg
    rw [h] at he
    cases he
  · intro h
    cases he : arenaBump arena length align with
    | none => rfl
    | some p => exact absurd (grantable_of_arenaBump he) h

end

theorem unsignedMul_eq_some {a b c : Word} :
    unsignedMul a b = some c ↔ a.toNat*b.toNat = c.toNat := by
  rw [unsignedMul, ite_none_right_eq_some]
  have hq : a.toNat*b.toNat/2^64 < 2^64 := by
    rw [Nat.div_lt_iff_lt_mul (by decide)]
    exact mul_lt_mul'' a.isLt b.isLt
  have hz : BitVec.ofNat 64 (a.toNat*b.toNat/2^64) = 0 ↔ a.toNat*b.toNat < 2^64 := by
    rw [← div_eq_zero_iff_lt (by decide)]
    constructor
    · intro h
      have := congrArg BitVec.toNat h
      rwa [toNat_ofNat, mod_eq_of_lt hq] at this
    · intro h
      rw [h]
      rfl
  rw [hz]
  constructor
  · rintro ⟨h,he⟩
    cases he
    rw [toNat_ofNat, mod_eq_of_lt h]
  · intro h
    refine ⟨h ▸ c.isLt,?_⟩
    rw [h, ofNat_toNat, setWidth_eq]

theorem Request.length_eq_some {r : Request} : r.length = some length ↔ r.bytes = length.toNat := by
  cases r with
  | reserve l align | place type =>
    simp only [Request.length, Request.bytes, some.injEq, toNat_inj]
  | reserveArray element count align => exact unsignedMul_eq_some

theorem frameBegin_eq_some {frame after : Arena}
    (h : frameBegin parent length = some (frame, after)) :
    parent.nextOffset.toNat+length.toNat ≤ parent.arenaLength.toNat ∧
      frame.arenaBase.toNat = parent.arenaBase.toNat+parent.nextOffset.toNat ∧
      frame.arenaLength = length ∧ frame.nextOffset = 0 ∧
      after = {parent with nextOffset := parent.nextOffset+length} ∧
      (parent.nextOffset+length).toNat = parent.nextOffset.toNat+length.toNat := by
  simp only [frameBegin, ite_none_left_eq_some, some.injEq, Prod.mk.injEq] at h
  obtain ⟨hend,hlim,haddr,rfl,rfl⟩ := h
  rw [add_toNat_of_not_carries hend] at hlim
  exact ⟨not_lt.mp hlim,add_toNat_of_not_carries haddr,rfl,rfl,rfl,
    add_toNat_of_not_carries hend⟩

theorem frameBegin_eq_none :
    frameBegin parent length = none ↔
      parent.arenaLength.toNat < parent.nextOffset.toNat+length.toNat ∨
        2^64 ≤ parent.arenaBase.toNat+parent.nextOffset.toNat := by
  have hlen := parent.arenaLength.isLt
  rw [frameBegin]
  by_cases hend : Carries parent.nextOffset length
  · rw [if_pos hend]
    rw [Carries] at hend
    exact iff_of_true rfl (.inl (by omega))
  · rw [if_neg hend, add_toNat_of_not_carries hend]
    by_cases hlim : parent.arenaLength.toNat < parent.nextOffset.toNat+length.toNat
    · simp [hlim]
    · rw [if_neg hlim]
      by_cases hbase : Carries parent.arenaBase parent.nextOffset
      · rw [if_pos hbase]
        exact iff_of_true rfl (.inr hbase)
      · rw [if_neg hbase]
        exact iff_of_false (by simp) (by simpa [hlim, Carries] using hbase)

end Wrela.Arenas
