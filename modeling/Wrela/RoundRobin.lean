import Mathlib.Data.Nat.ModEq
import Mathlib.Data.List.Basic
import Mathlib.Data.Nat.Find

/-!
# Rings

An index counts modulo the size of a ring: one more, and back to zero at the
end. Entries are put into `n` slots one after another, from the first slot again after
the last. An entry stays until the slot is filled again, a round later. The entries
are kept in the order in which they were put.
-/

set_option autoImplicit false

namespace RingIndex
open Nat

theorem slot_ne {size i j : ℕ} (hij : i < j) (hj : j < i+size) : i%size ≠ j%size := by
  intro h
  have hd := (modEq_iff_dvd' (le_of_lt hij)).mp h
  exact absurd (le_of_dvd (by omega) hd) (by omega)

section
variable {w : ℕ} {size index : BitVec w} {n : ℕ}

theorem succ_toNat (h : index.toNat < size.toNat) : (index+1).toNat = index.toNat+1 := by
  have := size.isLt
  rw [BitVec.toNat_add, ← mod_eq_of_lt (show index.toNat+1 < 2^w by omega)]
  simp

theorem succ_eq_iff (hs : 0 < size.toNat) (h : index.toNat = n%size.toNat) :
    index+1 = size ↔ n%size.toNat+1 = size.toNat := by
  rw [← BitVec.toNat_inj, succ_toNat (h ▸ mod_lt n hs), h]

theorem next_toNat (hs : 0 < size.toNat) (h : index.toNat = n%size.toNat) :
    (if index+1 = size then 0 else index+1).toNat = (n+1)%size.toNat := by
  have hlt := mod_lt n hs
  rw [apply_ite BitVec.toNat, succ_toNat (h ▸ hlt), h, add_mod]
  simp only [succ_eq_iff hs h]
  split
  · next he =>
    by_cases hone : size.toNat = 1
    · simp [hone, mod_one]
    · rw [mod_eq_of_lt (show 1 < size.toNat by omega), he, mod_self]
      simp
  · next he =>
    rw [mod_eq_of_lt (show 1 < size.toNat by omega)]
    exact (mod_eq_of_lt (by omega)).symm

end

end RingIndex

namespace RoundRobin
open List Nat

section
variable {α : Type*} {n : ℕ}

def Live (n : ℕ) (puts : List α) (a : ℕ) (p : α) : Prop :=
  puts.length ≤ a+n ∧ puts[a]? = some p

def Holds (n : ℕ) (puts : List α) (i : ℕ) (p : α) : Prop :=
  ∃ a, Live n puts a p ∧ a%n = i

variable {puts : List α} {p q : α} {i a b : ℕ}

theorem Live.lt (h : Live n puts a p) : a < puts.length :=
  (List.getElem?_eq_some_iff.mp h.2).1

theorem not_holds_nil : ¬ Holds n ([] : List α) i p := by
  rintro ⟨a,⟨-,h⟩,-⟩
  cases h

theorem Live.number_unique (ha : Live n puts a p) (hb : Live n puts b q) (h : a%n = b%n) :
    a = b := by
  have hal := ha.lt
  have hbl := hb.lt
  rcases lt_trichotomy a b with hlt | he | hlt
  · exact absurd h (RingIndex.slot_ne hlt (by have := ha.1; omega))
  · exact he
  · exact absurd h.symm (RingIndex.slot_ne hlt (by have := hb.1; omega))

theorem live_concat_iff : Live n (puts++[p]) a q ↔
    Live n puts a q ∧ puts.length < a+n ∨ 0 < n ∧ a = puts.length ∧ p = q := by
  simp only [Live, length_append, length_singleton]
  rcases lt_trichotomy a puts.length with hlt | rfl | hlt
  · rw [getElem?_append_left hlt]
    constructor
    · rintro ⟨h,hq⟩
      exact .inl ⟨⟨by omega,hq⟩,by omega⟩
    · rintro (⟨⟨-,hq⟩,h⟩ | ⟨-,he,-⟩)
      · exact ⟨by omega,hq⟩
      · omega
  · simp only [getElem?_concat_length, Option.some.injEq, getElem?_length, reduceCtorEq,
      and_false, false_and, false_or, true_and]
    exact and_congr_left fun _ => by omega
  · rw [getElem?_eq_none (by simp; omega), getElem?_eq_none (by omega)]
    simp only [reduceCtorEq, and_false, false_and, false_or, false_iff]
    omega

theorem holds_concat_iff (hn : 0 < n) : Holds n (puts++[p]) i q ↔
    if i = puts.length%n then p = q else Holds n puts i q := by
  constructor
  · rintro ⟨a,ha,rfl⟩
    rcases live_concat_iff.mp ha with ⟨hlive,hlater⟩ | ⟨-,rfl,rfl⟩
    · rw [if_neg (RingIndex.slot_ne hlive.lt hlater)]
      exact ⟨a,hlive,rfl⟩
    · rw [if_pos rfl]
  · split
    · rintro rfl
      exact ⟨puts.length,live_concat_iff.mpr (.inr ⟨hn,rfl,rfl⟩),by simp_all⟩
    · rintro ⟨a,ha,rfl⟩
      refine ⟨a,live_concat_iff.mpr (.inl ⟨ha,?_⟩),rfl⟩
      refine lt_of_le_of_ne ha.1 fun he => ?_
      simp_all

end

section
variable {κ β : Type*} {n : ℕ}

def OncePerRound (n : ℕ) (puts : List (κ × β)) : Prop :=
  ∀ a b p q, a < b → puts[a]? = some p → puts[b]? = some q → a/n = b/n → p.1 ≠ q.1

def Lowest (n : ℕ) (puts : List (κ × β)) (a : ℕ) (p : κ × β) : Prop :=
  Live n puts a p ∧ ∀ b q, Live n puts b q → q.1 = p.1 → a%n ≤ b%n

variable {puts : List (κ × β)} {p q : κ × β} {a b : ℕ}

/-- In the lowest slot is the entry put last, when no key is put twice in a round:
an entry put later stands lower only if its round is a later one. -/
theorem Lowest.last (h : Lowest n puts a p) (honce : OncePerRound n puts)
    (hq : puts[b]? = some q) (hkey : q.1 = p.1) : b ≤ a := by
  refine Nat.le_of_not_lt fun hlt => ?_
  have hlive : Live n puts b q := ⟨by have := h.1.1; omega,hq⟩
  have hle := h.2 b q hlive hkey
  have hround : a/n = b/n := by
    have hb := hlive.lt
    have ha := h.1.1
    have hdiv := Nat.div_le_div_right (c := n) hlt.le
    have ha' := Nat.div_add_mod a n
    have hb' := Nat.div_add_mod b n
    -- otherwise `b` is at least a round later
    refine le_antisymm hdiv (Nat.le_of_not_lt fun hlater => ?_)
    have hmul := mul_le_mul_left n (succ_le_of_lt hlater)
    rw [mul_succ] at hmul
    omega
  exact honce a b p q hlt h.1.2 hq hround hkey.symm

theorem exists_lowest (h : Live n puts a p) : ∃ b q, Lowest n puts b q ∧ q.1 = p.1 := by
  classical
  have hex : ∃ i, ∃ b q, Live n puts b q ∧ q.1 = p.1 ∧ b%n = i := ⟨_,a,p,h,rfl,rfl⟩
  obtain ⟨b,q,hq,hkey,hb⟩ := Nat.find_spec hex
  refine ⟨b,q,⟨hq,fun b' q' hq' hkey' => ?_⟩,hkey⟩
  rw [hb]
  exact Nat.find_min' hex ⟨b',q',hq',hkey'.trans hkey,rfl⟩

theorem lowest_of_first {i : ℕ} (h : Holds n puts i p)
    (hfirst : ∀ j < i, ∀ q, Holds n puts j q → q.1 ≠ p.1) : ∃ a, Lowest n puts a p ∧ a%n = i := by
  obtain ⟨a,ha,rfl⟩ := h
  refine ⟨a,⟨ha,fun b q hq hkey => ?_⟩,rfl⟩
  exact Nat.le_of_not_lt fun hlt => hfirst _ hlt q ⟨b,hq,rfl⟩ hkey

theorem Lowest.unique (h : Lowest n puts a p) (h' : Lowest n puts b q) (hkey : p.1 = q.1) :
    p = q := by
  have hslot : a%n = b%n := le_antisymm (h.2 b q h'.1 hkey.symm) (h'.2 a p h.1 hkey)
  obtain rfl := h.1.number_unique h'.1 hslot
  exact Option.some.inj (h.1.2.symm.trans h'.1.2)

end

end RoundRobin
