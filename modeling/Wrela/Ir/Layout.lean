import Mathlib.Data.Int.ModEq
import Wrela.X86.Memory

/-!
# Types and their layout

The value types of the intermediate representation and the layout that lowering
gives them. A record field of a record type is a one-word handle; a data record
it points at is placed in a storage area behind the fields. Enum fields are laid
out inline, and a variant's payload fields stand at their storage. Field and
variant names only index the tables, so fields stand in declaration order.
-/

set_option autoImplicit false

namespace Wrela.Ir

inductive Prim where
  | bool | u8 | u16 | u32 | u64 | i8 | i16 | i32 | i64 | physicalAddress | virtualAddress
  deriving DecidableEq, Repr

def Prim.size : Prim → ℕ
  | .bool | .u8 | .i8 => 1
  | .u16 | .i16 => 2
  | .u32 | .i32 => 4
  | .u64 | .i64 | .physicalAddress | .virtualAddress => 8

/-- Records are of data or of class kind. -/
inductive Ty where
  | prim (p : Prim)
  | data (fields : List Ty)
  | cls (fields : List Ty)
  | enum (variants : List (List Ty))
  deriving Repr

namespace Ty

def isData : Ty → Bool
  | .data _ => true
  | _ => false

def isHandleRecordKind : Ty → Bool
  | .data _ | .cls _ => true
  | .prim _ | .enum _ => false

/-- Values of these types are held by their address. -/
def isHandleType : Ty → Bool
  | .prim _ => false
  | .data _ | .cls _ | .enum _ => true

end Ty

structure FieldInfo where
  type : Ty
  offset : ℕ
  size : ℕ
  align : ℕ
  storageOffset : Option ℕ
  storageSize : ℕ

structure TypeInfo where
  size : ℕ
  align : ℕ
  storageSize : ℕ
  fields : List FieldInfo
  enumVariants : List (List FieldInfo)

def alignUp (value align : ℕ) : ℕ :=
  if align ≤ 1 then value
  else if value%align = 0 then value
  else value+(align-value%align)

def fieldSize (type : Ty) (info : TypeInfo) : ℕ :=
  if type.isHandleRecordKind then 8 else info.size

def fieldAlign (type : Ty) (info : TypeInfo) : ℕ :=
  if type.isHandleRecordKind then 8 else if info.align = 0 then 8 else info.align

def storageSizeOf (info : TypeInfo) : ℕ :=
  if info.storageSize = 0 then info.size else info.storageSize

/-- The fields of a record one after another, with the end of the last one and
the largest alignment. -/
def recordFields (offset align : ℕ) : List (Ty × TypeInfo) → List FieldInfo × ℕ × ℕ
  | [] => ([], offset, align)
  | (type, info)::fields =>
    let at' := alignUp offset (fieldAlign type info)
    let rest := recordFields (at'+fieldSize type info) (max align (fieldAlign type info)) fields
    (⟨type,at',fieldSize type info,fieldAlign type info,none,0⟩::rest.1, rest.2)

def recordStorage (storageOffset : ℕ) : List (FieldInfo × TypeInfo) → List FieldInfo × ℕ
  | [] => ([], storageOffset)
  | (field, info)::fields =>
    if field.type.isData then
      let at' := alignUp storageOffset (if info.align = 0 then 8 else info.align)
      let rest := recordStorage (at'+storageSizeOf info) fields
      ({field with storageOffset := some at', storageSize := storageSizeOf info}::rest.1, rest.2)
    else
      let rest := recordStorage storageOffset fields
      (field::rest.1, rest.2)

def recordInfo (fields : List (Ty × TypeInfo)) : TypeInfo :=
  let (placed, offset, align) := recordFields 0 1 fields
  let size := alignUp offset align
  let (size, align) := if size = 0 then (8, 8) else (size, align)
  let (placed, storageOffset) := recordStorage size (placed.zip (fields.map (·.2)))
  ⟨size,align,alignUp storageOffset align,placed,[]⟩

def semanticFieldLayout (offset align : ℕ) : List (Ty × TypeInfo) → List FieldInfo × ℕ × ℕ
  | [] => ([], offset, align)
  | (type, info)::fields =>
    let at' := alignUp offset (fieldAlign type info)
    let rest := semanticFieldLayout (at'+storageSizeOf info)
      (max align (fieldAlign type info)) fields
    (⟨type,at',fieldSize type info,fieldAlign type info,some at',storageSizeOf info⟩::rest.1,
      rest.2)

def variantLayout (fields : List (Ty × TypeInfo)) : List FieldInfo × ℕ × ℕ :=
  let (placed, offset, align) := semanticFieldLayout 8 1 fields
  (placed, alignUp (offset-8) align, align)

def tagField : FieldInfo := ⟨.prim .u64,0,8,8,some 0,8⟩

def enumInfo (variants : List (List (Ty × TypeInfo))) : TypeInfo :=
  let layouts := variants.map variantLayout
  let payloadSize := (layouts.map (·.2.1)).foldl max 0
  let align := max 8 ((layouts.map (·.2.2)).foldl max 1)
  let size := alignUp (8+payloadSize) align
  ⟨size,align,size,tagField::(layouts.map (·.1)).flatten,layouts.map (·.1)⟩

mutual

def Ty.info : Ty → TypeInfo
  | .prim p => ⟨p.size,p.size,p.size,[],[]⟩
  | .data fields | .cls fields => recordInfo (fieldInfos fields)
  | .enum variants => enumInfo (variantInfos variants)

def fieldInfos : List Ty → List (Ty × TypeInfo)
  | [] => []
  | t::ts => (t, t.info)::fieldInfos ts

def variantInfos : List (List Ty) → List (List (Ty × TypeInfo))
  | [] => []
  | fields::variants => fieldInfos fields::variantInfos variants

end

namespace Ty

def size (t : Ty) : ℕ := t.info.size

def storageSize (t : Ty) : ℕ := storageSizeOf t.info

def representationSize (t : Ty) : ℕ := if t.isHandleType then 8 else t.size

def valueWidthBits (t : Ty) : ℕ :=
  match t.representationSize with
  | 1 => 8
  | 2 => 16
  | 4 => 32
  | _ => 64

end Ty

end Wrela.Ir

/-! ### Where the parts of a value stand -/

namespace Wrela.Ir
open List

theorem Ty.fields_induction {P : Ty → Prop} (prim : ∀ p, P (.prim p))
    (data : ∀ fields, (∀ t ∈ fields, P t) → P (.data fields))
    (cls : ∀ fields, (∀ t ∈ fields, P t) → P (.cls fields))
    (enum : ∀ variants, (∀ fields ∈ variants, ∀ t ∈ fields, P t) → P (.enum variants)) : ∀ t, P t :=
  Ty.rec prim data cls enum (by simp) (fun _ _ h hs => by simpa using ⟨h,hs⟩) (by simp)
    (fun _ _ h hs => by simpa using ⟨h,hs⟩)

theorem fieldInfos_eq (ts : List Ty) : fieldInfos ts = ts.map fun t => (t, t.info) := by
  induction ts with
  | nil => rfl
  | cons t ts ih => simp [fieldInfos, ih]

variable (variants : List (List Ty))

theorem variantInfos_eq : variantInfos variants = variants.map fieldInfos := by
  induction variants with
  | nil => rfl
  | cons fields variants ih => simp [variantInfos, ih]

section
variable (value align : ℕ)

theorem le_alignUp : value ≤ alignUp value align := by
  rw [alignUp]
  split_ifs <;> omega

theorem alignUp_eight_mod : alignUp value 8%8 = 0 := by
  rw [alignUp]
  split_ifs <;> omega

end

section

variable {fields : List (Ty × TypeInfo)}

section
variable {align : ℕ} (h : ∀ f ∈ fields, fieldAlign f.1 f.2 ≤ 8) (ha : align ≤ 8)
include h ha

theorem recordFields_align_le {offset : ℕ} : (recordFields offset align fields).2.2 ≤ 8 := by
  induction fields generalizing offset align with
  | nil => exact ha
  | cons f fields ih =>
    rw [forall_mem_cons] at h
    exact ih h.2 (max_le ha h.1)

theorem semanticFieldLayout_align_le {offset : ℕ} :
    (semanticFieldLayout offset align fields).2.2 ≤ 8 := by
  induction fields generalizing offset align with
  | nil => exact ha
  | cons f fields ih =>
    rw [forall_mem_cons] at h
    exact ih h.2 (max_le ha h.1)

end

theorem foldl_max_le {ns : List ℕ} {bound n : ℕ} (h : ∀ k ∈ ns, k ≤ bound) (hn : n ≤ bound) :
    ns.foldl max n ≤ bound := by
  induction ns generalizing n with
  | nil => exact hn
  | cons k ns ih =>
    rw [forall_mem_cons] at h
    exact ih h.2 (max_le hn h.1)

theorem le_foldl_max (ns : List ℕ) (n : ℕ) : n ≤ ns.foldl max n := by
  induction ns generalizing n with
  | nil => exact le_refl n
  | cons k ns ih => exact le_trans (le_max_left n k) (ih _)

theorem fieldAlign_le {t : Ty} (h : t.info.align ≤ 8) : fieldAlign t t.info ≤ 8 := by
  rw [fieldAlign]
  split_ifs <;> omega

theorem forall_fieldInfos {ts : List Ty} {P : Ty × TypeInfo → Prop}
    (h : ∀ t ∈ ts, P (t, t.info)) : ∀ f ∈ fieldInfos ts, P f := by
  rw [fieldInfos_eq]
  simpa using h

theorem recordInfo_align_le
    (h : ∀ f ∈ fields, fieldAlign f.1 f.2 ≤ 8) : (recordInfo fields).align ≤ 8 := by
  have ha : (recordFields 0 1 fields).2.2 ≤ 8 := recordFields_align_le h (by decide)
  simp only [recordInfo]
  split_ifs
  · exact le_refl 8
  · exact ha

theorem enumInfo_align {variants : List (List (Ty × TypeInfo))}
    (h : ∀ fields ∈ variants, ∀ f ∈ fields, fieldAlign f.1 f.2 ≤ 8) :
    (enumInfo variants).align = 8 := by
  apply max_eq_left
  apply foldl_max_le _ (by decide)
  simp only [map_map, mem_map]
  rintro _ ⟨fields,hf,rfl⟩
  exact semanticFieldLayout_align_le (h fields hf) (by decide)

theorem align_le (t : Ty) : t.info.align ≤ 8 := by
  induction t using Ty.fields_induction with
  | prim p => cases p <;> decide
  | data fields ih | cls fields ih =>
    exact recordInfo_align_le (forall_fieldInfos fun t ht => fieldAlign_le (ih t ht))
  | enum variants ih =>
    refine le_of_eq (enumInfo_align ?_)
    simp only [variantInfos_eq, mem_map]
    rintro _ ⟨fields,hf,rfl⟩
    exact forall_fieldInfos fun t ht => fieldAlign_le (ih fields hf t ht)

theorem enum_align : (Ty.enum variants).info.align = 8 := by
  refine enumInfo_align ?_
  simp only [variantInfos_eq, mem_map]
  rintro _ ⟨fields,hf,rfl⟩
  exact forall_fieldInfos fun t _ => fieldAlign_le (align_le t)

theorem fieldAlign_of_handle {t : Ty} (h : t.isHandleType) : fieldAlign t t.info = 8 := by
  cases t with
  | prim p => cases h
  | data fields => rfl
  | cls fields => rfl
  | enum variants => simp [fieldAlign, enum_align variants, Ty.isHandleRecordKind]

end

/-- Bytes a field takes in place: in a record a record field is its handle, a
payload field has its whole storage. -/
def Ty.extent (inRecord : Bool) (t : Ty) : ℕ :=
  if inRecord then fieldSize t t.info else t.storageSize

/-- Where the fields of a record or of a payload stand: the inline parts from
`lo` to `hi`, the storage of data fields from `slo` to `shi`, each one behind
the one before. -/
inductive Laid (inRecord : Bool) : List Ty → List FieldInfo → ℕ → ℕ → ℕ → ℕ → Prop
  | nil {lo hi slo shi : ℕ} (h : lo ≤ hi) (hs : slo ≤ shi) : Laid inRecord [] [] lo hi slo shi
  | stored {t : Ty} {f : FieldInfo} {ts : List Ty} {fs : List FieldInfo} {lo hi slo so shi : ℕ}
      (hd : (inRecord && t.isData)) (hf : f.storageOffset = some so)
      (hlo : lo ≤ f.offset) (hal : f.offset%8 = 0) (hslo : slo ≤ so)
      (rest : Laid inRecord ts fs (f.offset+8) hi (so+t.storageSize) shi) :
      Laid inRecord (t::ts) (f::fs) lo hi slo shi
  | inline {t : Ty} {f : FieldInfo} {ts : List Ty} {fs : List FieldInfo} {lo hi slo shi : ℕ}
      (hd : (inRecord && t.isData) = false)
      (hf : t.isData → f.storageOffset = some f.offset) (hlo : lo ≤ f.offset)
      (hal : t.isHandleType → f.offset%8 = 0)
      (rest : Laid inRecord ts fs (f.offset+t.extent inRecord) hi slo shi) :
      Laid inRecord (t::ts) (f::fs) lo hi slo shi

namespace Laid
variable {inRecord : Bool} {ts : List Ty} {fs : List FieldInfo} {lo hi slo shi : ℕ}

theorem mono {hi' shi' : ℕ} (h : Laid inRecord ts fs lo hi slo shi) (hh : hi ≤ hi')
    (hs : shi ≤ shi') : Laid inRecord ts fs lo hi' slo shi' := by
  induction h with
  | nil h h' => exact nil (le_trans h hh) (le_trans h' hs)
  | stored hd hf hlo hal hslo rest ih => exact stored hd hf hlo hal hslo (ih hh hs)
  | inline hd hf hlo hal rest ih => exact inline hd hf hlo hal (ih hh hs)

theorem le (h : Laid inRecord ts fs lo hi slo shi) : lo ≤ hi ∧ slo ≤ shi := by
  induction h with
  | nil h hs => exact ⟨h,hs⟩
  | stored hd hf hlo hal hslo rest ih => omega
  | inline hd hf hlo hal rest ih => omega

end Laid

section

theorem isHandleRecordKind_of_isData {t : Ty} (h : t.isData) :
    t.isHandleRecordKind := by
  cases t with
  | data fields => rfl
  | prim p | cls fields | enum variants => cases h

theorem storageSize_enum : (Ty.enum variants).storageSize = (Ty.enum variants).size := by
  simp only [Ty.storageSize, Ty.size, storageSizeOf, Ty.info, enumInfo]
  exact ite_id _

theorem storageSize_prim (p : Prim) : (Ty.prim p).storageSize = p.size := by
  cases p <;> rfl

theorem recordPasses_laid (ts : List Ty) (lo align slo : ℕ) :
    Laid true ts
      (recordStorage slo ((recordFields lo align (fieldInfos ts)).1.zip
        ((fieldInfos ts).map (·.2)))).1
      lo (recordFields lo align (fieldInfos ts)).2.1 slo
      (recordStorage slo ((recordFields lo align (fieldInfos ts)).1.zip
        ((fieldInfos ts).map (·.2)))).2 := by
  induction ts generalizing lo align slo with
  | nil => exact .nil (le_refl _) (le_refl _)
  | cons t ts ih =>
    simp only [fieldInfos, recordFields, map_cons, zip_cons_cons, recordStorage]
    cases hd : t.isData with
    | true =>
      simp only [if_true]
      refine .stored hd rfl (le_alignUp _ _) ?_ (le_alignUp _ _) ?_
      · simp [fieldAlign, isHandleRecordKind_of_isData hd, alignUp_eight_mod]
      · simpa [fieldSize, isHandleRecordKind_of_isData hd, Ty.storageSize] using ih _ _ _
    | false =>
      simp only [Bool.false_eq_true, if_false]
      refine .inline hd (by simp [hd]) (le_alignUp _ _) ?_ ?_
      · intro hh
        simp [fieldAlign_of_handle hh, alignUp_eight_mod]
      · exact ih _ _ _

variable (fields : List Ty)

theorem recordInfo_laid :
    ∃ size, 0 < size ∧ (recordInfo (fieldInfos fields)).size = size ∧
      size ≤ (recordInfo (fieldInfos fields)).storageSize ∧
      Laid true fields (recordInfo (fieldInfos fields)).fields 0 size size
        (recordInfo (fieldInfos fields)).storageSize := by
  have laid : ∀ size align, (recordFields 0 1 (fieldInfos fields)).2.1 ≤ size →
      Laid true fields _ 0 size size (alignUp _ align) := fun size align h =>
    (recordPasses_laid fields 0 1 size).mono h (le_alignUp _ align)
  have hle := le_alignUp (recordFields 0 1 (fieldInfos fields)).2.1
    (recordFields 0 1 (fieldInfos fields)).2.2
  simp only [recordInfo]
  split_ifs with hz
  · have h := laid 8 8 (le_trans hle (by simp only [hz]; decide))
    exact ⟨8,by decide,rfl,h.le.2,h⟩
  · have h := laid _ (recordFields 0 1 (fieldInfos fields)).2.2 hle
    exact ⟨_,Nat.pos_of_ne_zero hz,rfl,h.le.2,h⟩

theorem storageSize_data : (Ty.data fields).storageSize = (Ty.data fields).info.storageSize := by
  obtain ⟨size,hp,-,hle,-⟩ := recordInfo_laid fields
  rw [Ty.storageSize, storageSizeOf, if_neg]
  rw [Ty.info]
  omega

theorem record_laid :
    Laid true fields (Ty.data fields).info.fields 0 (Ty.data fields).size (Ty.data fields).size
      (Ty.data fields).storageSize := by
  rw [storageSize_data]
  obtain ⟨size,-,hs,-,h⟩ := recordInfo_laid fields
  rwa [← hs] at h

theorem class_laid :
    Laid true fields (Ty.cls fields).info.fields 0 (Ty.cls fields).size (Ty.cls fields).size
      (Ty.cls fields).storageSize := record_laid fields

theorem data_size_pos : 0 < (Ty.data fields).size := by
  obtain ⟨size,hp,hs,-,-⟩ := recordInfo_laid fields
  rw [Ty.size, Ty.info]
  omega

end

theorem eight_le_enum_size : 8 ≤ (Ty.enum variants).size := by
  simp only [Ty.size, Ty.info, enumInfo]
  exact le_trans (Nat.le_add_right _ _) (le_alignUp _ _)

theorem size_pos (t : Ty) : 0 < t.size := by
  cases t with
  | prim p => cases p <;> decide
  | data fields | cls fields => exact data_size_pos fields
  | enum variants =>
    have := eight_le_enum_size variants
    omega

theorem size_le_storageSize (t : Ty) : t.size ≤ t.storageSize := by
  cases t with
  | data fields => exact (record_laid fields).le.2
  | cls fields => exact (class_laid fields).le.2
  | prim p => exact (storageSize_prim p).ge
  | enum variants => exact (storageSize_enum variants).ge

end Wrela.Ir

/-! ### Numbers of the primitive types -/

namespace Wrela.Ir.Prim
open X86 BitVec

variable (p : Prim)

def bits : ℕ := 8*p.size

def signed : Prim → Bool
  | .i8 | .i16 | .i32 | .i64 => true
  | _ => false

def negative (v : Word) : Prop := 2^(p.bits-1) ≤ v.toNat

instance (p : Prim) (v : Word) : Decidable (p.negative v) := inferInstanceAs (Decidable (_ ≤ _))

def value (v : Word) : ℤ :=
  if p.signed ∧ p.negative v then v.toNat-(2^p.bits : ℕ) else v.toNat

def wrap (z : ℤ) : ℕ := (z%(2^p.bits : ℕ)).toNat

/-- The type is read as a signed quadword compares it: the signed quadword
itself, and the unsigned types that a quadword holds without its sign bit. -/
def ComparesSigned : Prop := p.signed ↔ p.size = 8

instance (p : Prim) : Decidable p.ComparesSigned := inferInstanceAs (Decidable (_ ↔ _))

section
variable (p : Prim) {a b : Word}

theorem bits_le : p.bits ≤ 64 := by
  cases p <;> decide

theorem bits_pos : 0 < p.bits := by
  cases p <;> decide

theorem range_dvd : 2^p.bits ∣ 2^64 := Nat.pow_dvd_pow 2 p.bits_le

theorem value_modEq (a : Word) : p.value a ≡ a.toNat [ZMOD (2^p.bits : ℕ)] := by
  rw [value]
  split_ifs
  · exact Int.sub_emod_right _ _
  · rfl

theorem wrap_eq {z : ℤ} {n : ℕ} (h : z ≡ n [ZMOD (2^p.bits : ℕ)]) : p.wrap z = n%2^p.bits := by
  rw [wrap, h]
  norm_cast

theorem wrap_value (ha : a.toNat < 2^p.bits) : p.wrap (p.value a) = a.toNat := by
  rw [p.wrap_eq (p.value_modEq a), Nat.mod_eq_of_lt ha]

theorem value_of_nonneg (ha : a.toNat < 2^p.bits) (h : 0 ≤ p.value a) : p.value a = a.toNat := by
  rw [value] at h ⊢
  split_ifs at h ⊢ with hs
  · omega
  · rfl

theorem range_eq : 2^p.bits = 2*2^(p.bits-1) := by
  rw [← pow_succ', Nat.sub_add_cancel p.bits_pos]

theorem value_of_neg (h : p.value a < 0) :
    p.value a = a.toNat-(2^p.bits : ℕ) ∧ 2^(p.bits-1) ≤ a.toNat := by
  rw [value] at h ⊢
  split_ifs at h ⊢ with hs
  · exact ⟨rfl,hs.2⟩
  · omega

theorem wrap_of_neg {z : ℤ} (hz : z < 0) (hl : -(2^(p.bits-1) : ℕ) ≤ z) :
    (p.wrap z : ℤ) = z+(2^p.bits : ℕ) := by
  have hr := p.range_eq
  rw [wrap, ← Int.add_emod_right, Int.emod_eq_of_lt (by omega) (by omega)]
  omega

section
variable (ha : a.toNat < 2^p.bits)
include ha

theorem value_inj (hb : b.toNat < 2^p.bits) : p.value a = p.value b ↔ a = b := by
  constructor
  · intro h
    have hm := (p.value_modEq a).symm.trans (h ▸ p.value_modEq b)
    apply eq_of_toNat_eq
    have := Int.natCast_modEq_iff.mp (by exact_mod_cast hm)
    exact Nat.ModEq.eq_of_lt_of_lt this ha hb
  · rintro rfl
    rfl

theorem toInt_eq :
    a.toInt = if p.size = 8 ∧ p.negative a then (a.toNat:ℤ)-(2^p.bits : ℕ) else a.toNat := by
  by_cases h8 : p.size = 8
  · have h64 : p.bits = 64 := by rw [bits, h8]
    rw [toInt_eq_toNat_cond]
    simp only [h8, true_and, negative, h64]
    split_ifs <;> omega
  · have h32 : p.bits ≤ 32 := by
      cases p <;> first | decide | exact absurd rfl h8
    have hle : 2^p.bits ≤ 2^32 := Nat.pow_le_pow_right (by decide) h32
    rw [if_neg (fun h => h8 h.1)]
    exact toInt_eq_toNat_of_lt (by omega)

theorem value_lt_iff (hb : b.toNat < 2^p.bits)
    (h : p.ComparesSigned ∨ (p.negative a ↔ p.negative b)) :
    p.value a < p.value b ↔ a.toInt < b.toInt := by
  rw [p.toInt_eq ha, p.toInt_eq hb, value, value]
  rcases h with h | h
  · rw [ComparesSigned] at h
    simp [h]
  · simp only [h]
    split_ifs <;> omega

/-- With different top bits and a type that is not read as a signed quadword,
the order is the opposite one. -/
theorem value_lt_opposite (hb : b.toNat < 2^p.bits) (h : ¬ p.ComparesSigned)
    (hn : ¬ (p.negative a ↔ p.negative b)) : p.value a < p.value b ↔ b.toInt < a.toInt := by
  rw [p.toInt_eq ha, p.toInt_eq hb, value, value]
  rw [ComparesSigned] at h
  generalize 2^p.bits = N at *
  by_cases hs : p.signed <;> by_cases h8 : p.size = 8 <;> by_cases hna : p.negative a <;>
    by_cases hnb : p.negative b <;> simp [hs, h8, hna, hnb] at h hn ⊢ <;>
    rw [negative] at hna hnb <;> omega

end

end

end Wrela.Ir.Prim
