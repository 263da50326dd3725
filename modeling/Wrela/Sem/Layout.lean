import Wrela.Ir.Layout

/-!
# The checker's layout and the layout of the generated code

The checker sizes topic and event payloads with a layout computation of its own.
It gives the storage of every data field in a record a word boundary, where the
layout of the generated code aligns the storage only as the field's own record
asks for. Records whose data fields pack into fewer words than they take one by
one are therefore larger for the checker, and nothing else differs.
-/

set_option autoImplicit false

namespace Wrela.Sem
open Ir List Option Nat

variable {variants : List (List Ty)} {ts fields : List Ty} {p : Prim} {c : List Ty → Ty}
  {offset offset' align : ℕ} {t : Ty}

/-- Size and alignment of a primitive in a payload; the rest has no layout. -/
def primitivePayloadLayout : Prim → Option (ℕ × ℕ)
  | .bool | .u8 => some (1, 1)
  | .u16 => some (2, 2)
  | .u32 => some (4, 4)
  | .u64 | .i64 | .physicalAddress | .virtualAddress => some (8, 8)
  | .i8 | .i16 | .i32 => none

def alignPayloadOffset (offset align : ℕ) : ℕ :=
  if align = 0 ∨ offset%align = 0 then offset else offset+align-offset%align

structure Layout where
  valueSize : ℕ
  align : ℕ
  storageSize : ℕ
  deriving DecidableEq, Repr

structure SemanticFieldLayout where
  valueSize : ℕ
  valueAlign : ℕ
  storageSize : ℕ
  isData : Bool
  deriving DecidableEq, Repr

def valueFields (valueSize align : ℕ) : List SemanticFieldLayout → ℕ × ℕ
  | [] => (valueSize, align)
  | field::fields =>
    valueFields (alignPayloadOffset valueSize field.valueAlign+field.valueSize)
      (if field.valueAlign > align then field.valueAlign else align) fields

def storageFields (storageOffset : ℕ) : List SemanticFieldLayout → ℕ
  | [] => storageOffset
  | field::fields =>
    if !field.isData then storageFields storageOffset fields
    else
      let storageAlign := if field.valueAlign = 0 then 8 else field.valueAlign
      storageFields (alignPayloadOffset storageOffset storageAlign+field.storageSize) fields

def recordLayout (fields : List SemanticFieldLayout) : Layout :=
  if fields.length = 0 then ⟨8,8,8⟩
  else
    let (valueSize, align) := valueFields 0 0 fields
    let align := if align = 0 then 8 else align
    let valueSize := alignPayloadOffset valueSize align
    let storageSize := alignPayloadOffset (storageFields valueSize fields) align
    ⟨valueSize,align,if storageSize = 0 then valueSize else storageSize⟩

def payloadFields (offset payloadAlign : ℕ) : List SemanticFieldLayout → ℕ × ℕ
  | [] => (offset, payloadAlign)
  | field::fields =>
    payloadFields (alignPayloadOffset offset field.valueAlign+field.storageSize)
      (if field.valueAlign > payloadAlign then field.valueAlign else payloadAlign) fields

def semanticVariantPayloadSize (fields : List SemanticFieldLayout) : ℕ × ℕ :=
  let (offset, payloadAlign) := payloadFields 8 1 fields
  (alignPayloadOffset (offset-8) payloadAlign, payloadAlign)

def enumVariants (enumSize enumAlign : ℕ) : List (List SemanticFieldLayout) → ℕ × ℕ
  | [] => (enumSize, enumAlign)
  | fields::variants =>
    let (variantSize, variantAlign) := semanticVariantPayloadSize fields
    enumVariants (if 8+variantSize > enumSize then 8+variantSize else enumSize)
      (if variantAlign > enumAlign then variantAlign else enumAlign) variants

def enumLayout (variants : List (List SemanticFieldLayout)) : Layout :=
  let (enumSize, enumAlign) := enumVariants 8 8 variants
  let enumSize := alignPayloadOffset enumSize enumAlign
  let enumSize := if enumSize = 0 then 8 else enumSize
  ⟨enumSize,enumAlign,enumSize⟩

def semanticFieldSizeAndStorage (type : Ty) (layout : Layout) : SemanticFieldLayout :=
  if type.isHandleRecordKind then ⟨8,8,layout.storageSize,type.isData⟩
  else ⟨layout.valueSize,layout.align,layout.storageSize,type.isData⟩

mutual

/-- `none` where the checker has no layout for the type. -/
def semanticSizeAlignAndStorage : Ty → Option Layout
  | .prim p => (primitivePayloadLayout p).map fun (size, align) => ⟨size,align,size⟩
  | .data fields | .cls fields => (semanticFields fields).map recordLayout
  | .enum variants => (semanticVariants variants).map enumLayout

def semanticFields : List Ty → Option (List SemanticFieldLayout)
  | [] => some []
  | t::ts =>
    (semanticSizeAlignAndStorage t).bind fun layout =>
      (semanticFields ts).map (semanticFieldSizeAndStorage t layout::·)

def semanticVariants : List (List Ty) → Option (List (List SemanticFieldLayout))
  | [] => some []
  | fields::variants =>
    (semanticFields fields).bind fun fields => (semanticVariants variants).map (fields::·)

end

def irLayout (t : Ty) : Layout := ⟨t.info.size,t.info.align,t.info.storageSize⟩

inductive Part : Ty → Ty → Prop
  | refl (t : Ty) : Part t t
  | data {u t : Ty} {fields : List Ty} (ht : t ∈ fields) (h : Part u t) : Part u (.data fields)
  | cls {u t : Ty} {fields : List Ty} (ht : t ∈ fields) (h : Part u t) : Part u (.cls fields)
  | enum {u t : Ty} {fields : List Ty} {variants : List (List Ty)} (hf : fields ∈ variants)
      (ht : t ∈ fields) (h : Part u t) : Part u (.enum variants)

def packedStorage (fields : List Ty) : ℕ :=
  let size := (recordInfo (fieldInfos fields)).size
  let placed := (recordFields 0 1 (fieldInfos fields)).1
  (recordStorage size (placed.zip ((fieldInfos fields).map (·.2)))).2-size

/-- The same when every one of them starts a word. -/
def wordStorage (fields : List Ty) : ℕ :=
  ((fields.filter (·.isData)).map fun t => alignUp t.storageSize 8).sum

/-- The data fields of a record fill as many words together as one by one. -/
def PackedInWords : Ty → Prop
  | .data fields | .cls fields => alignUp (packedStorage fields) 8 = wordStorage fields
  | .prim _ | .enum _ => True

instance : DecidablePred PackedInWords
  | .data fields | .cls fields => inferInstanceAs (Decidable (_ = wordStorage fields))
  | .prim _ | .enum _ => inferInstanceAs (Decidable True)

section
variable (offset align : ℕ)

theorem alignPayloadOffset_eq (h : 0 < align) : alignPayloadOffset offset align = alignUp offset align := by
  rw [alignPayloadOffset, alignUp]
  split_ifs with h1 h2 h3
  · rfl
  · rfl
  · omega
  · rw [show align = 1 by omega] at h1
    omega
  · omega
  · have := mod_lt offset h
    omega

theorem alignUp_eight : alignUp offset 8 = (offset+7)/8*8 := by
  rw [alignUp]
  split_ifs <;> omega

theorem larger_eq_max : (if align > offset then align else offset) = max offset align := by
  split_ifs <;> omega

end

section
variable (t : Ty) (ts : List Ty)

def fieldOf : SemanticFieldLayout :=
  ⟨fieldSize t t.info,fieldAlign t t.info,t.storageSize,t.isData⟩

theorem storageSize_eq : t.storageSize = t.info.storageSize := by
  cases t with
  | prim p => cases p <;> rfl
  | data fields | cls fields => exact storageSize_data fields
  | enum variants => exact storageSize_enum variants

theorem fieldAlign_pos (info : TypeInfo) : 0 < fieldAlign t info := by
  rw [fieldAlign]
  split_ifs <;> omega

theorem fieldSize_pos : 0 < fieldSize t t.info := by
  rw [fieldSize]
  split_ifs
  · decide
  · exact size_pos t

theorem semanticFieldSizeAndStorage_eq :
    semanticFieldSizeAndStorage t (irLayout t) = fieldOf t := by
  have hs := storageSize_eq t
  cases t with
  | prim p => cases p <;> rfl
  | data fields | cls fields =>
    simp [semanticFieldSizeAndStorage, fieldOf, irLayout, fieldSize, fieldAlign, hs, Ty.isHandleRecordKind]
  | enum variants =>
    have ha : (Ty.enum variants).info.align = 8 := enum_align variants
    simp [semanticFieldSizeAndStorage, fieldOf, irLayout, fieldSize, fieldAlign, hs, ha,
      Ty.isHandleRecordKind]

theorem valueFields_eq (offset align : ℕ) :
    valueFields offset align (ts.map fieldOf) = (recordFields offset align (fieldInfos ts)).2 := by
  induction ts generalizing offset align with
  | nil => rfl
  | cons t ts ih =>
    rw [map_cons, valueFields, ih, larger_eq_max, fieldInfos, recordFields]
    simp [fieldOf, alignPayloadOffset_eq _ _ (fieldAlign_pos t t.info)]

theorem payloadFields_eq (offset align : ℕ) :
    payloadFields offset align (ts.map fieldOf) =
      (semanticFieldLayout offset align (fieldInfos ts)).2 := by
  induction ts generalizing offset align with
  | nil => rfl
  | cons t ts ih =>
    rw [map_cons, payloadFields, ih, larger_eq_max, fieldInfos, semanticFieldLayout]
    simp [fieldOf, alignPayloadOffset_eq _ _ (fieldAlign_pos t t.info), Ty.storageSize]

theorem storageFields_words (storageOffset : ℕ) :
    alignUp (storageFields storageOffset (ts.map fieldOf)) 8 =
      alignUp storageOffset 8+wordStorage ts := by
  induction ts generalizing storageOffset with
  | nil => rfl
  | cons t ts ih =>
    rw [map_cons, storageFields]
    cases hd : t.isData with
    | false => simpa [fieldOf, hd, wordStorage] using ih storageOffset
    | true =>
      have ha : fieldAlign t t.info = 8 := by
        rw [fieldAlign, isHandleRecordKind_of_isData hd, if_pos rfl]
      simp only [fieldOf, hd, ha, Bool.not_true, Bool.false_eq_true, if_false, Nat.reduceEqDiff]
      rw [ih, alignPayloadOffset_eq _ _ (by decide)]
      simp only [wordStorage, hd, filter_cons, if_true, map_cons, sum_cons, alignUp_eight]
      omega

end

section
variable (t : Ty) (ts : List Ty)

theorem le_recordFields (fields : List (Ty × TypeInfo)) (offset align : ℕ) :
    offset ≤ (recordFields offset align fields).2.1 ∧
      align ≤ (recordFields offset align fields).2.2 := by
  induction fields generalizing offset align with
  | nil => exact ⟨le_refl _,le_refl _⟩
  | cons f fields ih =>
    obtain ⟨type,info⟩ := f
    have h := ih (alignUp offset (fieldAlign type info)+fieldSize type info)
      (max align (fieldAlign type info))
    have ho := le_alignUp offset (fieldAlign type info)
    exact ⟨by simp [recordFields]; omega,le_trans (le_max_left _ _) h.2⟩

theorem recordFields_end_pos : 0 < (recordFields 0 1 (fieldInfos (t::ts))).2.1 := by
  have h := (le_recordFields (fieldInfos ts) (alignUp 0 (fieldAlign t t.info)+fieldSize t t.info)
    (max 1 (fieldAlign t t.info))).1
  have hp := fieldSize_pos t
  simp only [fieldInfos, recordFields]
  omega

theorem recordFields_start :
    (recordFields 0 0 (fieldInfos (t::ts))).2 = (recordFields 0 1 (fieldInfos (t::ts))).2 := by
  have hp := fieldAlign_pos t t.info
  simp only [fieldInfos, recordFields]
  rw [max_eq_right (zero_le _), max_eq_right hp]

theorem recordFields_align_of_data {ts : List Ty} (h : ∃ t ∈ ts, t.isData)
    (offset align : ℕ) : 8 ≤ (recordFields offset align (fieldInfos ts)).2.2 := by
  induction ts generalizing offset align with
  | nil =>
    obtain ⟨t,ht,-⟩ := h
    cases ht
  | cons t ts ih =>
    rw [fieldInfos, recordFields]
    obtain ⟨u,hu,hd⟩ := h
    rcases mem_cons.mp hu with rfl | hu
    · refine le_trans ?_ (le_recordFields _ _ _).2
      rw [fieldAlign, isHandleRecordKind_of_isData hd, if_pos rfl]
      exact le_max_right _ _
    · exact ih ⟨u,hu,hd⟩ _ _

theorem recordStorage_le (fields : List (FieldInfo × TypeInfo)) (storageOffset : ℕ) :
    storageOffset ≤ (recordStorage storageOffset fields).2 := by
  induction fields generalizing storageOffset with
  | nil => exact le_refl _
  | cons f fields ih =>
    rw [recordStorage]
    by_cases hd : f.1.type.isData
    · rw [if_pos hd]
      exact le_trans (le_trans (le_alignUp _ _) (le_add_right _ _)) (ih _)
    · rw [if_neg hd]
      exact ih _

theorem recordStorage_of_no_data {ts : List Ty} (h : ∀ t ∈ ts, t.isData = false)
    (offset align storageOffset : ℕ) :
    (recordStorage storageOffset ((recordFields offset align (fieldInfos ts)).1.zip
      ((fieldInfos ts).map (·.2)))).2 = storageOffset := by
  induction ts generalizing offset align with
  | nil => rfl
  | cons t ts ih =>
    rw [forall_mem_cons] at h
    simp only [fieldInfos, recordFields, map_cons, zip_cons_cons, recordStorage, h.1,
      Bool.false_eq_true, if_false]
    exact ih h.2 _ _

theorem storageFields_le (storageOffset : ℕ) :
    storageOffset ≤ storageFields storageOffset (ts.map fieldOf) := by
  induction ts generalizing storageOffset with
  | nil => exact le_refl _
  | cons t ts ih =>
    rw [map_cons, storageFields]
    cases hd : t.isData with
    | false => simpa [fieldOf, hd] using ih storageOffset
    | true =>
      have ha : 0 < if (fieldOf t).valueAlign = 0 then 8 else (fieldOf t).valueAlign := by
        split_ifs <;> omega
      simp only [show (fieldOf t).isData = true from hd, Bool.not_true, Bool.false_eq_true,
        if_false, alignPayloadOffset_eq _ _ ha]
      exact le_trans (le_trans (le_alignUp _ _) (le_add_right _ _)) (ih _)

theorem storageFields_of_no_data {ts : List Ty} (h : ∀ t ∈ ts, t.isData = false)
    (storageOffset : ℕ) : storageFields storageOffset (ts.map fieldOf) = storageOffset := by
  induction ts with
  | nil => rfl
  | cons t ts ih =>
    rw [forall_mem_cons] at h
    simpa [storageFields, fieldOf, h.1] using ih h.2

def recordAlign (fields : List Ty) : ℕ := (recordFields 0 1 (fieldInfos fields)).2.2

def recordSize (fields : List Ty) : ℕ :=
  alignUp (recordFields 0 1 (fieldInfos fields)).2.1 (recordAlign fields)

theorem recordAlign_pos (fields : List Ty) : 0 < recordAlign fields :=
  (le_recordFields (fieldInfos fields) 0 1).2

theorem recordSize_pos : 0 < recordSize (t::ts) :=
  lt_of_lt_of_le (recordFields_end_pos t ts) (le_alignUp _ _)

theorem recordInfo_size : (recordInfo (fieldInfos (t::ts))).size = recordSize (t::ts) := by
  have hp := recordSize_pos t ts
  rw [recordSize, recordAlign] at hp ⊢
  simp only [recordInfo, if_neg (ne_of_gt hp)]

theorem irLayout_record :
    irLayout (.data (t::ts)) = ⟨recordSize (t::ts),recordAlign (t::ts),
      alignUp (recordSize (t::ts)+packedStorage (t::ts)) (recordAlign (t::ts))⟩ := by
  have hp := recordSize_pos t ts
  have hs := recordInfo_size t ts
  have hle := recordStorage_le ((recordFields 0 1 (fieldInfos (t::ts))).1.zip
    ((fieldInfos (t::ts)).map (·.2))) (recordSize (t::ts))
  simp only [packedStorage, hs, Nat.add_sub_cancel' hle]
  rw [recordSize, recordAlign] at hp ⊢
  simp only [irLayout, Ty.info, recordInfo, if_neg (ne_of_gt hp)]

theorem recordLayout_record :
    recordLayout ((t::ts).map fieldOf) = ⟨recordSize (t::ts),recordAlign (t::ts),
      alignUp (storageFields (recordSize (t::ts)) ((t::ts).map fieldOf))
        (recordAlign (t::ts))⟩ := by
  have hv := (valueFields_eq (t::ts) 0 0).trans (recordFields_start t ts)
  have ha := recordAlign_pos (t::ts)
  have hs : alignUp (storageFields (recordSize (t::ts)) ((t::ts).map fieldOf))
      (recordAlign (t::ts)) ≠ 0 := by
    have hp := recordSize_pos t ts
    have h1 := storageFields_le (t::ts) (recordSize (t::ts))
    have h2 := le_alignUp (storageFields (recordSize (t::ts)) ((t::ts).map fieldOf))
      (recordAlign (t::ts))
    omega
  rw [recordSize, recordAlign] at *
  rw [recordLayout, if_neg (by simp)]
  simp only [hv, if_neg (ne_of_gt ha), alignPayloadOffset_eq _ _ ha, if_neg hs]

theorem recordLayout_iff (fields : List Ty) :
    recordLayout (fields.map fieldOf) = irLayout (.data fields) ↔ PackedInWords (.data fields) := by
  cases fields with
  | nil => decide
  | cons t ts =>
    rw [recordLayout_record, irLayout_record, Layout.mk.injEq, PackedInWords]
    by_cases hd : ∃ u ∈ t::ts, u.isData
    · have ha : recordAlign (t::ts) = 8 := by
        refine le_antisymm ?_ (recordFields_align_of_data hd 0 1)
        exact recordFields_align_le (forall_fieldInfos fun u _ => fieldAlign_le (align_le u))
          (by decide)
      have hs : recordSize (t::ts)%8 = 0 := by
        rw [recordSize, ha]
        exact alignUp_eight_mod _
      rw [ha, storageFields_words, alignUp_eight, alignUp_eight, alignUp_eight]
      omega
    · have hn : ∀ u ∈ t::ts, u.isData = false := by
        simpa using hd
      have hw : wordStorage (t::ts) = 0 := by
        rw [wordStorage, filter_eq_nil_iff.mpr (by simpa using hn)]
        rfl
      have hp : packedStorage (t::ts) = 0 := by
        simp [packedStorage, recordStorage_of_no_data hn]
      rw [storageFields_of_no_data hn, hw, hp]
      simp [alignUp]

end

section

theorem le_semanticFieldLayout_align (fields : List (Ty × TypeInfo)) (offset align : ℕ) :
    align ≤ (semanticFieldLayout offset align fields).2.2 := by
  induction fields generalizing offset align with
  | nil => exact le_refl _
  | cons f fields ih => exact le_trans (le_max_left _ _) (ih _ _)

theorem semanticVariantPayloadSize_eq (fields : List Ty) :
    semanticVariantPayloadSize (fields.map fieldOf) = (variantLayout (fieldInfos fields)).2 := by
  have ha : 0 < (semanticFieldLayout 8 1 (fieldInfos fields)).2.2 :=
    le_semanticFieldLayout_align _ _ _
  simp [semanticVariantPayloadSize, payloadFields_eq, variantLayout, alignPayloadOffset_eq _ _ ha]

variable (variants : List (List Ty))

theorem enumVariants_max (size align : ℕ) :
    enumVariants (8+size) align (variants.map (·.map fieldOf)) =
      (8+(((variantInfos variants).map variantLayout).map (·.2.1)).foldl max size,
        (((variantInfos variants).map variantLayout).map (·.2.2)).foldl max align) := by
  induction variants generalizing size align with
  | nil => rfl
  | cons fields variants ih =>
    rw [map_cons, enumVariants, semanticVariantPayloadSize_eq, variantInfos, map_cons,
      map_cons, map_cons, foldl_cons, foldl_cons]
    simp only [larger_eq_max, Nat.add_max_add_left, ih]

theorem foldl_variantAligns :
    (((variantInfos variants).map variantLayout).map (·.2.2)).foldl max 8 = 8 := by
  refine le_antisymm (foldl_max_le ?_ (le_refl 8)) (le_foldl_max _ 8)
  simp only [variantInfos_eq, List.map_map, List.mem_map]
  rintro _ ⟨fields,hf,rfl⟩
  exact semanticFieldLayout_align_le
    (forall_fieldInfos fun t _ => fieldAlign_le (align_le t)) (by decide)

theorem enumLayout_eq : enumLayout (variants.map (·.map fieldOf)) = irLayout (.enum variants) := by
  have hi := enum_align variants
  simp only [Ty.info, enumInfo] at hi
  simp only [enumLayout, enumVariants_max variants 0 8, foldl_variantAligns, irLayout, Ty.info, enumInfo, hi,
    alignPayloadOffset_eq _ 8 (by decide)]
  rw [if_neg]
  have := le_alignUp (8+(((variantInfos variants).map variantLayout).map (·.2.1)).foldl max 0) 8
  omega

end

theorem semanticFields_eq (h : ∀ t ∈ ts, semanticSizeAlignAndStorage t = some (irLayout t)) :
    semanticFields ts = some (ts.map fieldOf) := by
  induction ts with
  | nil => rfl
  | cons t ts ih =>
    rw [forall_mem_cons] at h
    rw [semanticFields, h.1, ih h.2, bind_some, semanticFieldSizeAndStorage_eq]
    rfl

theorem semanticVariants_eq
    (h : ∀ fields ∈ variants, ∀ t ∈ fields, semanticSizeAlignAndStorage t = some (irLayout t)) :
    semanticVariants variants = some (variants.map (·.map fieldOf)) := by
  induction variants with
  | nil => rfl
  | cons fields variants ih =>
    rw [forall_mem_cons] at h
    rw [semanticVariants, semanticFields_eq h.1, ih h.2]
    rfl

theorem isSome_of_mem (h : (semanticFields ts).isSome) :
    ∀ t ∈ ts, (semanticSizeAlignAndStorage t).isSome := by
  induction ts with
  | nil => nofun
  | cons t ts ih =>
    rw [semanticFields] at h
    rw [forall_mem_cons]
    cases ht : semanticSizeAlignAndStorage t with
    | none =>
      rw [ht] at h
      cases h
    | some layout => exact ⟨rfl,ih (by simpa [ht] using h)⟩

theorem isSome_of_mem_variants (h : (semanticVariants variants).isSome) :
    ∀ fields ∈ variants, ∀ t ∈ fields, (semanticSizeAlignAndStorage t).isSome := by
  induction variants with
  | nil => nofun
  | cons fields variants ih =>
    rw [semanticVariants] at h
    rw [forall_mem_cons]
    cases hf : semanticFields fields with
    | none =>
      rw [hf] at h
      cases h
    | some layouts => exact ⟨isSome_of_mem (by rw [hf]; rfl),ih (by simpa [hf] using h)⟩

section
variable {P : Ty → Prop} {fields : List Ty}

theorem forall_part_prim : (∀ u, Part u (.prim p) → P u) ↔ P (.prim p) := by
  constructor
  · exact fun h => h _ (.refl _)
  · rintro h u ⟨⟩
    exact h

theorem forall_part_record (hc : c = .data ∨ c = .cls) :
    (∀ u, Part u (c fields) → P u) ↔ P (c fields) ∧ ∀ t ∈ fields, ∀ u, Part u t → P u := by
  obtain rfl | rfl := hc
  all_goals
    constructor
    · intro h
      refine ⟨h _ (.refl _),fun t ht u hu => h u ?_⟩
      first | exact .data ht hu | exact .cls ht hu
    · rintro ⟨h,hs⟩ u hu
      cases hu with
      | refl => exact h
      | _ ht hu => exact hs _ ht u hu

theorem forall_part_enum :
    (∀ u, Part u (.enum variants) → P u) ↔
      P (.enum variants) ∧ ∀ fields ∈ variants, ∀ t ∈ fields, ∀ u, Part u t → P u := by
  constructor
  · exact fun h => ⟨h _ (.refl _),fun fields hf t ht u hu => h u (.enum hf ht hu)⟩
  · rintro ⟨h,hs⟩ u hu
    cases hu with
    | refl => exact h
    | enum hf ht hu => exact hs _ hf _ ht u hu

end

def Agrees (t : Ty) : Prop := semanticSizeAlignAndStorage t = some (irLayout t)

instance : DecidablePred Agrees := fun _ => inferInstanceAs (Decidable (_ = _))

theorem agrees_record (hc : c = .data ∨ c = .cls)
    (h : ∀ t ∈ fields, Agrees t) : Agrees (c fields) ↔ PackedInWords (c fields) := by
  obtain rfl | rfl := hc
  all_goals
    rw [Agrees, semanticSizeAlignAndStorage, semanticFields_eq h, map_some, Option.some.injEq]
    exact recordLayout_iff fields

theorem agrees_enum (h : ∀ fields ∈ variants, ∀ t ∈ fields, Agrees t) :
    Agrees (.enum variants) := by
  rw [Agrees, semanticSizeAlignAndStorage, semanticVariants_eq h, map_some, enumLayout_eq]

theorem agrees_prim (h : (semanticSizeAlignAndStorage (.prim p)).isSome) :
    Agrees (.prim p) := by
  cases p <;> first | rfl | cases h

/-- The layouts agree on a type and on all it is made of exactly when no record
among them packs the storage of its data fields into fewer words. -/
theorem layouts_agree_iff {t : Ty} (h : (semanticSizeAlignAndStorage t).isSome) :
    (∀ u, Part u t → Agrees u) ↔ ∀ u, Part u t → PackedInWords u := by
  induction t using Ty.fields_induction with
  | prim p =>
    rw [forall_part_prim, forall_part_prim]
    exact iff_of_true (agrees_prim h) trivial
  | data fields ih | cls fields ih =>
    rw [semanticSizeAlignAndStorage, isSome_map] at h
    rw [forall_part_record (by simp), forall_part_record (by simp),
      ← forall₂_congr fun t ht => ih t ht (isSome_of_mem h t ht)]
    exact and_congr_left fun hs => agrees_record (by simp) fun t ht => hs t ht t (.refl t)
  | enum variants ih =>
    rw [semanticSizeAlignAndStorage, isSome_map] at h
    rw [forall_part_enum, forall_part_enum, ← forall₂_congr fun fields hf =>
      forall₂_congr fun t ht => ih fields hf t ht (isSome_of_mem_variants h fields hf t ht)]
    refine and_congr_left fun hs => iff_of_true ?_ trivial
    exact agrees_enum fun fields hf t ht => hs fields hf t ht t (.refl t)

def bytePair : Ty := .data [.data [.prim .u8],.data [.prim .u8]]

theorem bytePair_layouts_differ :
    semanticSizeAlignAndStorage bytePair = some ⟨16,8,32⟩ ∧ irLayout bytePair = ⟨16,8,24⟩ ∧
      ¬ Agrees bytePair := by
  decide

theorem layouts_agree_iff_words :
    (semanticSizeAlignAndStorage (.data [.data [.prim .u64],.data [.prim .u8]])).isSome ∧
      ∀ u, Part u (.data [.data [.prim .u64],.data [.prim .u8]]) → Agrees u := by
  refine ⟨by decide,(layouts_agree_iff (by decide)).mpr ?_⟩
  simp only [forall_part_record (.inl rfl), forall_part_prim, forall_mem_cons, not_mem_nil,
    false_implies, implies_true, and_true]
  decide

theorem alignUp_mono (ha : 0 < align) (h : offset ≤ offset') :
    alignUp offset align ≤ alignUp offset' align := by
  have hlt := mod_lt offset ha
  have hd := div_add_mod offset align
  have hd' := div_add_mod offset' align
  rw [alignUp, alignUp]
  obtain hq | hq := (Nat.div_le_div_right (c := align) h).eq_or_lt
  · rw [hq] at hd
    split_ifs <;> omega
  · have hmul := mul_le_mul_left align hq
    rw [succ_eq_add_one, mul_succ] at hmul
    split_ifs <;> omega

def WordAlign (align : ℕ) : Prop := align = 1 ∨ align = 2 ∨ align = 4 ∨ align = 8

theorem WordAlign.max {a b : ℕ} (ha : WordAlign a) (hb : WordAlign b) : WordAlign (max a b) := by
  rcases le_total a b with h | h
  · rwa [max_eq_right h]
  · rwa [max_eq_left h]

theorem alignUp_le_words (ha : WordAlign align) : alignUp offset align ≤ alignUp offset 8 := by
  rw [alignUp_eight]
  rcases ha with rfl | rfl | rfl | rfl <;> rw [alignUp] <;> split_ifs <;> omega

theorem recordFields_wordAlign (h : ∀ t ∈ ts, WordAlign (fieldAlign t t.info)) (offset : ℕ)
    (ha : WordAlign align) : WordAlign (recordFields offset align (fieldInfos ts)).2.2 := by
  induction ts generalizing offset align with
  | nil => exact ha
  | cons t ts ih =>
    rw [forall_mem_cons] at h
    exact ih h.2 _ (ha.max h.1)

theorem fieldAlign_wordAlign (h : WordAlign t.info.align) : WordAlign (fieldAlign t t.info) := by
  rw [fieldAlign]
  split_ifs
  · simp [WordAlign]
  · simp [WordAlign]
  · exact h

theorem recordInfo_wordAlign (h : ∀ t ∈ fields, WordAlign (fieldAlign t t.info)) :
    WordAlign (recordInfo (fieldInfos fields)).align := by
  have ha := recordFields_wordAlign h 0 (show WordAlign 1 from .inl rfl)
  simp only [recordInfo]
  split_ifs
  · simp [WordAlign]
  · exact ha

theorem info_wordAlign (t : Ty) : WordAlign t.info.align := by
  induction t using Ty.fields_induction with
  | prim p => cases p <;> simp [WordAlign, Ty.info, Prim.size]
  | data fields ih | cls fields ih =>
    exact recordInfo_wordAlign fun t ht => fieldAlign_wordAlign (ih t ht)
  | enum variants ih =>
    rw [enum_align]
    simp [WordAlign]

structure Reserves (t : Ty) (field : SemanticFieldLayout) : Prop where
  valueSize : fieldSize t t.info ≤ field.valueSize
  valueAlign : fieldAlign t t.info = field.valueAlign
  storageSize : t.storageSize ≤ field.storageSize
  isData : t.isData = field.isData

structure Covers (t : Ty) (layout : Layout) : Prop where
  valueSize : t.info.size ≤ layout.valueSize
  align : t.info.align = layout.align
  storageSize : t.info.storageSize ≤ layout.storageSize

theorem Covers.field {layout : Layout} (h : Covers t layout) :
    Reserves t (semanticFieldSizeAndStorage t layout) := by
  have hs := storageSize_eq t
  rw [semanticFieldSizeAndStorage]
  by_cases hh : t.isHandleRecordKind
  · rw [if_pos hh]
    exact ⟨by simp [fieldSize, hh],by simp [fieldAlign, hh],hs ▸ h.storageSize,rfl⟩
  · have hz : t.info.align ≠ 0 := by
      rcases info_wordAlign t with h | h | h | h <;> omega
    rw [if_neg hh]
    exact ⟨by simpa [fieldSize, hh] using h.valueSize,by simpa [fieldAlign, hh, hz] using h.align,
      hs ▸ h.storageSize,rfl⟩

section
variable {ts : List Ty} {fields : List SemanticFieldLayout}

section
variable (h : List.Forall₂ Reserves ts fields)
include h

theorem valueFields_covers (align : ℕ) (ho : offset ≤ offset') :
    (recordFields offset align (fieldInfos ts)).2.1 ≤ (valueFields offset' align fields).1 ∧
      (recordFields offset align (fieldInfos ts)).2.2 = (valueFields offset' align fields).2 := by
  induction h generalizing offset offset' align with
  | nil => exact ⟨ho,rfl⟩
  | @cons t field ts fields h _ ih =>
    have ha := fieldAlign_pos t t.info
    rw [fieldInfos, recordFields, valueFields, larger_eq_max, ← h.valueAlign,
      alignPayloadOffset_eq _ _ ha]
    exact ih _ (Nat.add_le_add (alignUp_mono ha ho) h.valueSize)

theorem payloadFields_covers (align : ℕ) (ho : offset ≤ offset') :
    (semanticFieldLayout offset align (fieldInfos ts)).2.1 ≤
        (payloadFields offset' align fields).1 ∧
      (semanticFieldLayout offset align (fieldInfos ts)).2.2 =
        (payloadFields offset' align fields).2 := by
  induction h generalizing offset offset' align with
  | nil => exact ⟨ho,rfl⟩
  | @cons t field ts fields h _ ih =>
    have ha := fieldAlign_pos t t.info
    rw [fieldInfos, semanticFieldLayout, payloadFields, larger_eq_max, ← h.valueAlign,
      alignPayloadOffset_eq _ _ ha]
    exact ih _ (Nat.add_le_add (alignUp_mono ha ho) h.storageSize)

theorem storageFields_covers
    {storageOffset storageOffset' : ℕ} (offset align : ℕ) (ho : storageOffset ≤ storageOffset') :
    (recordStorage storageOffset ((recordFields offset align (fieldInfos ts)).1.zip
      ((fieldInfos ts).map (·.2)))).2 ≤ storageFields storageOffset' fields := by
  induction h generalizing storageOffset storageOffset' offset align with
  | nil => exact ho
  | @cons t field ts fields h _ ih =>
    simp only [fieldInfos, recordFields, map_cons, zip_cons_cons, recordStorage,
      storageFields, ← h.isData, ← h.valueAlign]
    cases hd : t.isData with
    | false => simpa using ih _ _ ho
    | true =>
      have ha : fieldAlign t t.info = 8 := by
        rw [fieldAlign, isHandleRecordKind_of_isData hd, if_pos rfl]
      have hw := info_wordAlign t
      have hz : t.info.align ≠ 0 := by
        rcases hw with h | h | h | h <;> omega
      simp only [ha, hz, if_true, if_false, Bool.not_true, Bool.false_eq_true,
        alignPayloadOffset_eq _ 8 (by decide), Nat.reduceEqDiff]
      refine ih _ _ (Nat.add_le_add ?_ h.storageSize)
      exact le_trans (alignUp_le_words hw) (alignUp_mono (by decide) ho)

theorem recordLayout_covers : Covers (.data ts) (recordLayout fields) := by
  cases h with
  | nil => exact ⟨by decide,by decide,by decide⟩
  | @cons t field ts fields h hs =>
    have hall := List.Forall₂.cons h hs
    obtain ⟨hend,halign⟩ := valueFields_covers hall 0 (le_refl 0)
    rw [recordFields_start] at hend halign
    have hlayout := irLayout_record t ts
    simp only [irLayout, Layout.mk.injEq] at hlayout
    obtain ⟨hsize,hal,hstorage⟩ := hlayout
    have hp := recordAlign_pos (t::ts)
    have hal' : recordAlign (t::ts) = (valueFields 0 0 (field::fields)).2 := halign
    have hsize' : recordSize (t::ts) ≤
        alignUp (valueFields 0 0 (field::fields)).1 (recordAlign (t::ts)) := alignUp_mono hp hend
    have hst := storageFields_covers hall 0 1 hsize'
    have hpacked : recordSize (t::ts)+packedStorage (t::ts) ≤
        storageFields (alignUp (valueFields 0 0 (field::fields)).1 (recordAlign (t::ts)))
          (field::fields) := by
      have hle := recordStorage_le ((recordFields 0 1 (fieldInfos (t::ts))).1.zip
        ((fieldInfos (t::ts)).map (·.2))) (recordSize (t::ts))
      simp only [packedStorage, recordInfo_size]
      omega
    rw [recordLayout, if_neg (by simp)]
    simp only [← hal', if_neg (ne_of_gt hp), alignPayloadOffset_eq _ _ hp]
    refine ⟨hsize ▸ hsize',hal,?_⟩
    have hfinal := alignUp_mono hp hpacked
    rw [← hstorage] at hfinal
    split_ifs with hz
    · rw [hz] at hfinal
      omega
    · exact hfinal

theorem semanticVariantPayloadSize_covers :
    (variantLayout (fieldInfos ts)).2.1 ≤ (semanticVariantPayloadSize fields).1 ∧
      (variantLayout (fieldInfos ts)).2.2 = (semanticVariantPayloadSize fields).2 := by
  obtain ⟨hend,halign⟩ := payloadFields_covers h 1 (le_refl 8)
  have hp := le_semanticFieldLayout_align (fieldInfos ts) 8 1
  simp only [variantLayout, semanticVariantPayloadSize, ← halign]
  refine ⟨?_,trivial⟩
  rw [alignPayloadOffset_eq _ _ hp]
  exact alignUp_mono hp (Nat.sub_le_sub_right hend 8)

end

variable {layouts : List (List SemanticFieldLayout)}

section
variable (h : List.Forall₂ (List.Forall₂ Reserves) variants layouts)
include h

theorem enumVariants_covers {size size' : ℕ} (align : ℕ) (hs : 8+size ≤ size') :
    8+(((variantInfos variants).map variantLayout).map (·.2.1)).foldl max size ≤
        (enumVariants size' align layouts).1 ∧
      (((variantInfos variants).map variantLayout).map (·.2.2)).foldl max align =
        (enumVariants size' align layouts).2 := by
  induction h generalizing size size' align with
  | nil => exact ⟨hs,rfl⟩
  | @cons ts fields variants layouts h _ ih =>
    obtain ⟨hsize,halign⟩ := semanticVariantPayloadSize_covers h
    rw [enumVariants, variantInfos, map_cons, map_cons, map_cons, foldl_cons, foldl_cons]
    simp only [larger_eq_max, ← halign]
    exact ih _ (by omega)

theorem enumLayout_covers : Covers (.enum variants) (enumLayout layouts) := by
  obtain ⟨hsize,halign⟩ := enumVariants_covers h 8 (show 8+0 ≤ 8 from le_refl 8)
  rw [foldl_variantAligns] at halign
  have hi := enum_align variants
  have hle := le_alignUp (enumVariants 8 8 layouts).1 8
  have hz : alignUp (enumVariants 8 8 layouts).1 8 ≠ 0 := by omega
  have hinfo : (Ty.enum variants).info.size ≤ alignUp (enumVariants 8 8 layouts).1 8 := by
    simp only [Ty.info, enumInfo] at hi ⊢
    rw [hi]
    exact alignUp_mono (by decide) hsize
  simp only [enumLayout, ← halign, alignPayloadOffset_eq _ 8 (by decide), if_neg hz]
  exact ⟨hinfo,hi,(storageSize_eq (.enum variants)).symm.trans (storageSize_enum variants) ▸ hinfo⟩

end

theorem semanticFields_covers {ts : List Ty}
    (ih : ∀ t ∈ ts, ∀ layout, semanticSizeAlignAndStorage t = some layout → Covers t layout)
    {fields : List SemanticFieldLayout} (h : semanticFields ts = some fields) :
    List.Forall₂ Reserves ts fields := by
  induction ts generalizing fields with
  | nil =>
    cases h
    exact .nil
  | cons t ts ih' =>
    rw [forall_mem_cons] at ih
    obtain ⟨layout,hl,h⟩ := bind_eq_some_iff.mp h
    obtain ⟨rest,hr,rfl⟩ := map_eq_some_iff.mp h
    exact .cons (ih.1 layout hl).field (ih' ih.2 hr)

theorem semanticVariants_covers (ih : ∀ fields ∈ variants, ∀ t ∈ fields, ∀ layout,
      semanticSizeAlignAndStorage t = some layout → Covers t layout)
    (h : semanticVariants variants = some layouts) :
    List.Forall₂ (List.Forall₂ Reserves) variants layouts := by
  induction variants generalizing layouts with
  | nil =>
    cases h
    exact .nil
  | cons fields variants ih' =>
    rw [forall_mem_cons] at ih
    obtain ⟨first,hf,h⟩ := bind_eq_some_iff.mp h
    obtain ⟨rest,hr,rfl⟩ := map_eq_some_iff.mp h
    exact .cons (semanticFields_covers ih.1 hf) (ih' ih.2 hr)

end

theorem semanticLayout_covers (t : Ty) (layout : Layout)
    (h : semanticSizeAlignAndStorage t = some layout) : Covers t layout := by
  induction t using Ty.fields_induction generalizing layout with
  | prim p =>
    have ha := agrees_prim (p := p) (by rw [h]; rfl)
    rw [Agrees, h] at ha
    cases ha
    exact ⟨le_refl _,rfl,le_refl _⟩
  | data fields ih =>
    obtain ⟨layouts,hl,rfl⟩ := map_eq_some_iff.mp h
    exact recordLayout_covers (semanticFields_covers ih hl)
  | cls fields ih =>
    obtain ⟨layouts,hl,rfl⟩ := map_eq_some_iff.mp h
    have hc := recordLayout_covers (semanticFields_covers ih hl)
    exact ⟨hc.valueSize,hc.align,hc.storageSize⟩
  | enum variants ih =>
    obtain ⟨layouts,hl,rfl⟩ := map_eq_some_iff.mp h
    exact enumLayout_covers (semanticVariants_covers ih hl)

end Wrela.Sem
