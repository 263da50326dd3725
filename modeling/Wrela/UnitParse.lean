import Mathlib.Data.List.Basic

/-!
# Splitting a list into units

A list is read from the left as a sequence of units. Whether some entries form a
unit may depend on the position they stand at; a unit has a weight. When at each
position at most one unit can begin, a list splits in at most one way, there is
a longest prefix that splits, and it only grows when entries are appended. Records that
store their own length can be read from any record whose position is known.
-/

set_option autoImplicit false

namespace UnitParse
open List

variable {σ : Type*}

/-- `IsUnit p u w`: the entries `u` are a unit of weight `w` at position `p`. -/
structure Units (σ : Type*) where
  IsUnit : ℕ → List σ → ℕ → Prop
  ne_nil : ∀ p u w, IsUnit p u w → u ≠ []
  unique : ∀ p u u' w w' l, IsUnit p u w → IsUnit p u' w' → u <+: l → u' <+: l → u = u' ∧ w = w'

/-- The list is a sequence of units; the weights are summed. -/
inductive Splits (U : Units σ) : ℕ → List σ → ℕ → Prop
  | nil (p : ℕ) : Splits U p [] 0
  | cons {p w v : ℕ} {u l : List σ} (hu : U.IsUnit p u w) (hl : Splits U (p+u.length) l v) :
      Splits U p (u++l) (w+v)

structure Longest (U : Units σ) (p : ℕ) (l : List σ) (n v : ℕ) : Prop where
  le : n ≤ l.length
  splits : Splits U p (l.take n) v
  longest : ∀ m v', m ≤ l.length → Splits U p (l.take m) v' → m ≤ n

variable {U : Units σ} {p n v w : ℕ} {u l l' : List σ}

theorem Splits.first (h : Splits U p l v) (hl : l ≠ []) :
    ∃ u w l' v', U.IsUnit p u w ∧ Splits U (p+u.length) l' v' ∧ l = u++l' ∧ v = w+v' := by
  cases h with
  | nil => exact absurd rfl hl
  | cons hu hrest => exact ⟨_,_,_,_,hu,hrest,rfl,rfl⟩

theorem Splits.rest (hu : U.IsUnit p u w) (h : Splits U p (u++l) v) :
    ∃ v', Splits U (p+u.length) l v' ∧ v = w+v' := by
  have hne : u++l ≠ [] := fun he => U.ne_nil _ _ _ hu (append_eq_nil_iff.mp he).1
  obtain ⟨u',w',l',v',hu',hl',he,hv⟩ := h.first hne
  obtain ⟨rfl,rfl⟩ := U.unique p u u' w w' (u++l) hu hu' (prefix_append _ _)
    (he ▸ prefix_append _ _)
  obtain rfl := append_cancel_left he
  exact ⟨v',hl',hv⟩

theorem Splits.append_inv (h : Splits U p l v) (h' : Splits U p (l++l') n) :
    ∃ v', Splits U (p+l.length) l' v' ∧ n = v+v' := by
  induction h generalizing n with
  | nil p =>
    rw [nil_append] at h'
    exact ⟨n,h',(Nat.zero_add n).symm⟩
  | cons hu _ ih =>
    rw [append_assoc] at h'
    obtain ⟨x,hx,hn⟩ := Splits.rest hu h'
    obtain ⟨v',hv',hxv⟩ := ih hx
    rw [length_append, ← Nat.add_assoc]
    exact ⟨v',hv',by omega⟩

theorem Splits.weight_le (hU : ∀ p u w, U.IsUnit p u w → w ≤ u.length) (h : Splits U p l v) :
    v ≤ l.length := by
  induction h with
  | nil p => exact Nat.le_refl 0
  | cons hu _ ih =>
    rw [length_append]
    exact Nat.add_le_add (hU _ _ _ hu) ih

theorem Splits.append (h : Splits U p l v) (h' : Splits U (p+l.length) l' w) :
    Splits U p (l++l') (v+w) := by
  induction h with
  | nil p => simpa using h'
  | cons hu _ ih =>
    rw [length_append, ← Nat.add_assoc] at h'
    rw [append_assoc, Nat.add_assoc]
    exact .cons hu (ih h')

/-- A list that splits is its own longest prefix, with one weight. -/
theorem Longest.whole (h : Longest U p l n v) (hs : Splits U p l w) : n = l.length ∧ v = w := by
  obtain rfl := Nat.le_antisymm h.le (h.longest _ w (Nat.le_refl _) (by rwa [take_length]))
  have hv := h.splits
  rw [take_length, ← append_nil l] at hv
  obtain ⟨x,-,rfl⟩ := hs.append_inv hv
  rw [← append_nil l] at hs
  obtain ⟨y,-,hy⟩ := Splits.append_inv (append_nil l ▸ hv) hs
  exact ⟨rfl,by omega⟩

theorem longest_stop (h : ∀ u w, U.IsUnit p u w → ¬ u <+: l) : Longest U p l 0 0 := by
  refine ⟨Nat.zero_le _,by simpa using Splits.nil p,fun m v' hm hs => ?_⟩
  by_contra hpos
  have hne : l.take m ≠ [] := by
    intro he
    have := congrArg List.length he
    rw [length_take, length_nil] at this
    omega
  obtain ⟨u,w,l',_,hu,_,he,_⟩ := hs.first hne
  apply h u w hu
  exact (prefix_append u l').trans (he ▸ take_prefix m l)

theorem longest_unit (hu : U.IsUnit p u w) (h : Longest U (p+u.length) l n v) :
    Longest U p (u++l) (u.length+n) (w+v) := by
  refine ⟨?_,?_,fun m v' hm hs => ?_⟩
  · rw [length_append]
    exact Nat.add_le_add_left h.le _
  · rw [take_length_add_append]
    exact .cons hu h.splits
  · obtain hlt | hge := Nat.lt_or_ge m u.length
    · omega
    · obtain ⟨k,rfl⟩ := Nat.exists_eq_add_of_le hge
      rw [take_length_add_append] at hs
      obtain ⟨x,hx,_⟩ := Splits.rest hu hs
      rw [length_append] at hm
      have := h.longest k x (by omega) hx
      omega

theorem Longest.mono {n' v' : ℕ} (h : Longest U p l n v) (h' : Longest U p (l++l') n' v') :
    n ≤ n' ∧ v ≤ v' := by
  have htake : (l++l').take n = l.take n := take_append_of_le_length h.le
  have hle : n ≤ n' := by
    apply h'.longest n v
    · rw [length_append]
      exact Nat.le_add_right_of_le h.le
    · rw [htake]
      exact h.splits
  have hsplit : (l++l').take n' = l.take n ++ ((l++l').take n').drop n := by
    rw [← htake, ← Nat.min_eq_left hle, ← take_take, Nat.min_eq_left hle, take_append_drop]
  have hlong := h'.splits
  rw [hsplit] at hlong
  obtain ⟨x,_,hv⟩ := h.splits.append_inv hlong
  exact ⟨hle,by omega⟩

end UnitParse

namespace RecordStream
open List

variable {ρ β : Type*}

/-- How records are written, and how a reader finds the length of the one it
stands at. -/
structure Format (ρ β : Type*) where
  Valid : ρ → Prop
  encode : ρ → List β
  width : List β → ℕ
  width_encode : ∀ r rest, Valid r → width (encode r++rest) = (encode r).length

def Format.stream (F : Format ρ β) (rs : List ρ) : List β := rs.flatMap F.encode

def Format.skip (F : Format ρ β) : ℕ → List β → List β
  | 0, bs => bs
  | n+1, bs => F.skip n (bs.drop (F.width bs))

variable (F : Format ρ β) {rs : List ρ} {n i j : ℕ}

theorem Format.stream_cons (r : ρ) : F.stream (r::rs) = F.encode r++F.stream rs := flatMap_cons

theorem Format.stream_append (rs rs' : List ρ) : F.stream (rs++rs') = F.stream rs++F.stream rs' :=
  flatMap_append

theorem Format.skip_stream (h : ∀ r ∈ rs, F.Valid r) (hn : n ≤ rs.length) :
    F.skip n (F.stream rs) = F.stream (rs.drop n) := by
  induction n generalizing rs with
  | zero => rfl
  | succ n ih =>
    cases rs with
    | nil => exact absurd hn (Nat.not_succ_le_zero n)
    | cons r rs =>
      rw [Format.skip, F.stream_cons, F.width_encode r _ (h r (by simp)), drop_left, drop_succ_cons]
      exact ih (fun x hx => h x (by simp [hx])) (Nat.le_of_succ_le_succ hn)

theorem Format.skip_from (h : ∀ r ∈ rs, F.Valid r) (hi : i ≤ rs.length) (hj : j ≤ i) :
    F.skip (i-j) ((F.stream rs).drop (F.stream (rs.take j)).length) = F.stream (rs.drop i) := by
  have hsplit : (F.stream rs).drop (F.stream (rs.take j)).length = F.stream (rs.drop j) := by
    conv_lhs => rw [← take_append_drop j rs, F.stream_append, take_append_drop]
    exact drop_left
  rw [hsplit, F.skip_stream (fun r hr => h r (mem_of_mem_drop hr)), drop_drop,
    Nat.add_sub_cancel' hj]
  rw [length_drop]
  omega

end RecordStream
