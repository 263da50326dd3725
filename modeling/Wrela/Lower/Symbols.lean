import Wrela.Sem.Impls

/-!
# Link symbols

Every unit of the generated code is named by its kind, module, owner and method. The
parts are joined by underscores, and so are the words inside a part, whatever stood
between them. A symbol therefore tells the sequence of words and nothing else: not
where a part ends, and not what separated two words.
-/

set_option autoImplicit false

namespace Wrela.Symbols
open Unification List
open Sem.Impls (TypeName)

/-! ### Names -/

def isWordChar (c : Char) : Bool :=
  ('a' ≤ c && c ≤ 'z') || ('A' ≤ c && c ≤ 'Z') || ('0' ≤ c && c ≤ '9')

def symbolChar (c : Char) : Char := if isWordChar c then c else '_'

def symbolName (parts : List String) : String :=
  .ofList ("_wrela".toList++(parts.filter (· ≠ "")).flatMap fun part =>
    '_'::part.toList.map symbolChar)

def hexDigit (n : ℕ) : Char := "0123456789abcdef".toList.getD n '0'

def mangleByte (c : UInt8) : List Char :=
  let char := Char.ofNat c.toNat
  if isWordChar char || char = '_' then [char]
  else ['_', 'x', hexDigit (c.toNat/16), hexDigit (c.toNat%16), '_']

def mangleSymbolPart (s : String) : String := .ofList (s.toUTF8.toList.flatMap mangleByte)

abbrev TypeInstance := Term TypeName Empty

def qualifiedTypeName (t : TypeName) : String :=
  if t.moduleName = "" ∨ t.moduleName = "builtin" then t.name else t.moduleName++"."++t.name

mutual

def key : TypeInstance → String
  | .var x => nomatch x
  | .app head args =>
    if args.isEmpty then qualifiedTypeName head
    else qualifiedTypeName head++"["++",".intercalate (keys args)++"]"

def keys : List TypeInstance → List String
  | [] => []
  | t::ts => key t::keys ts

end

variable (moduleName : String)

/-- An argument without arguments of its own is named without its module inside of it. -/
def mangledArg : TypeInstance → String
  | .var x => nomatch x
  | .app head args =>
    if args.isEmpty ∧ (head.moduleName = "" ∨ head.moduleName = moduleName) then head.name
    else key (.app head args)

def mangledName : TypeInstance → String
  | .var x => nomatch x
  | .app head args =>
    if args.isEmpty then mangleSymbolPart head.name
    else mangleSymbolPart head.name++"_g"++
      mangleSymbolPart ("["++",".intercalate (args.map (mangledArg head.moduleName))++"]")

def ownerModule : TypeInstance → String
  | .var x => nomatch x
  | .app head _ => head.moduleName

def sanitizeSymbolName (label : String) : String :=
  .ofList (label.toList.map fun c => if c ∈ ['.', '/', '-', ' ', ':'] then '_' else c)

/-! ### Units -/

structure TopicOrigin where
  topicLabel : String
  subscriberSlot : String
  deriving DecidableEq

def topicMethodSpecializationSuffix (origins : List (String × TopicOrigin)) (slot : String) :
    String :=
  "_".intercalate (["topic"]++(if slot = "" then [] else ["slot", slot])++
    origins.flatMap fun (name, origin) => [name, origin.topicLabel]++
      if origin.subscriberSlot = "" then [] else [origin.subscriberSlot])

/-- The functions of a program: event encoders, interrupt events and handlers, methods,
those of an executor type with several placements, those of generic instances and those
specialized by topics, and the phases of the image. -/
inductive LinkUnit where
  | encoder (moduleName event : String) (layoutID : UInt64)
  | interruptEvent (moduleName path : String)
  | onHandler (moduleName executor pathField : String)
  | method (moduleName owner method : String)
  | placed (moduleName executor method slotLabel : String)
  | concrete (owner : TypeInstance) (method : String)
  | topicMethod (moduleName owner method : String) (origins : List (String × TopicOrigin))
      (slotLabel : String)
  | phase (moduleName image phase : String)
  deriving DecidableEq

def parts : LinkUnit → List String
  | .encoder moduleName event layoutID =>
    ["storage_event", moduleName, event, "layout_"++toString layoutID, "encode"]
  | .interruptEvent moduleName path => ["event_fn", moduleName, path, "interrupt"]
  | .onHandler moduleName executor pathField =>
    ["on_fn", moduleName, executor, pathField, "interrupt"]
  | .method moduleName owner method => ["method", moduleName, owner, method]
  | .placed moduleName executor method slotLabel =>
    ["method", moduleName, executor, method, sanitizeSymbolName slotLabel]
  | .concrete owner method => ["method", ownerModule owner, mangledName owner, method]
  | .topicMethod moduleName owner method origins slotLabel =>
    ["method", moduleName, owner, method, topicMethodSpecializationSuffix origins slotLabel]
  | .phase moduleName image phase => ["phase", moduleName, image, phase]

variable (unit : LinkUnit)

def symbol : String := symbolName (parts unit)

structure MethodDecl where
  name : String
  isAsm : Bool

structure TypeDecl where
  name : String
  typeParams : ℕ
  methods : List MethodDecl
  placements : List String
  interruptEvents : ℕ
  onHandlers : List String

structure Program where
  events : List (String × String × UInt64)
  modules : List (String × List TypeDecl)
  concreteMethods : List (TypeInstance × String)
  topicMethods : List ((String × String × String) × List (String × TopicOrigin) × String)
  imageModule : String
  imageName : String
  phases : List String

variable (decl : TypeDecl)

def interruptUnits : List LinkUnit :=
  List.replicate decl.interruptEvents (.interruptEvent moduleName decl.name)++
    decl.onHandlers.map (.onHandler moduleName decl.name)

def sourceMethods : List LinkUnit :=
  if decl.typeParams ≠ 0 then []
  else
    (decl.methods.filter (!·.isAsm)).flatMap fun method =>
      if decl.placements.length > 1 then
        decl.placements.map (.placed moduleName decl.name method.name)
      else [.method moduleName decl.name method.name]

def asmMethods : List LinkUnit :=
  (decl.methods.filter (·.isAsm)).map fun method => .method moduleName decl.name method.name

def lower (program : Program) : List LinkUnit :=
  let ofDecls := fun units : String → TypeDecl → List LinkUnit =>
    program.modules.flatMap fun (moduleName, decls) => decls.flatMap (units moduleName)
  program.events.map (fun (moduleName, event, layoutID) => .encoder moduleName event layoutID)++
    ofDecls interruptUnits++ofDecls sourceMethods++
    program.concreteMethods.map (fun (owner, method) => .concrete owner method)++
    program.topicMethods.map (fun ((moduleName, owner, method), origins, slotLabel) =>
      .topicMethod moduleName owner method origins slotLabel)++
    (program.phases.filter (· ∈ ["delegated_hardware", "owned_hardware"])).map
      (.phase program.imageModule program.imageName)++
    ofDecls asmMethods

/-! ### The symbol table -/

structure Text where
  data : List UInt8
  symbols : List (String × ℕ)

variable (code : LinkUnit → List UInt8)

/-- A unit is placed behind those before it; an entry for its symbol is replaced. -/
def placeUnit (text : Text) (unit : LinkUnit) : Text :=
  if symbol unit = "" then text
  else ⟨text.data++code unit,
    (symbol unit, 0x1000+text.data.length)::text.symbols.filter (·.1 ≠ symbol unit)⟩

def placeUnits (units : List LinkUnit) : Text :=
  units.foldl (placeUnit code) ⟨[],[]⟩

/-! ### The words of a symbol -/

def words : List (List Char) :=
  ((parts unit).filter (· ≠ "")).flatMap fun part => part.toList.splitOnP (!isWordChar ·)

theorem splitOn_symbolChar (cs : List Char) :
    (cs.map symbolChar).splitOn '_' = cs.splitOnP (!isWordChar ·) := by
  induction cs with
  | nil => rfl
  | cons c cs ih =>
    rw [List.splitOn] at ih ⊢
    rw [map_cons, splitOnP_cons_eq_if_modifyHead, splitOnP_cons_eq_if_modifyHead, ih]
    by_cases hc : isWordChar c
    · have hne : c ≠ '_' := by
        rintro rfl
        cases hc
      simp [symbolChar, hc, hne]
    · simp [symbolChar, hc]

theorem splitOn_parts (start : List Char) (ps : List String) :
    (start++ps.flatMap fun part => '_'::part.toList.map symbolChar).splitOn '_' =
      start.splitOn '_'++ps.flatMap fun part => part.toList.splitOnP (!isWordChar ·) := by
  induction ps generalizing start with
  | nil => simp
  | cons part ps ih =>
    rw [flatMap_cons, ← append_assoc, ih, splitOn_append_cons_self, splitOn_symbolChar,
      flatMap_cons, append_assoc]

theorem joined_eq_iff (start : List Char) (ps qs : List String) :
    (start++ps.flatMap fun part => '_'::part.toList.map symbolChar) =
        (start++qs.flatMap fun part => '_'::part.toList.map symbolChar) ↔
      (ps.flatMap fun part => part.toList.splitOnP (!isWordChar ·)) =
        qs.flatMap fun part => part.toList.splitOnP (!isWordChar ·) := by
  constructor
  · intro h
    have hsplit := congrArg (List.splitOn '_') h
    rw [splitOn_parts, splitOn_parts] at hsplit
    exact append_cancel_left hsplit
  · intro h
    calc
      _ = ['_'].intercalate (start.splitOn '_'++
          ps.flatMap fun part => part.toList.splitOnP (!isWordChar ·)) := by
        rw [← splitOn_parts, intercalate_splitOn]
      _ = _ := by rw [h, ← splitOn_parts, intercalate_splitOn]

theorem symbol_eq_iff {u v : LinkUnit} : symbol u = symbol v ↔ words u = words v := by
  unfold symbol symbolName words
  rw [String.ofList_inj]
  exact joined_eq_iff _ _ _

/-! ### Entries of the symbol table -/

section
variable {code : LinkUnit → List UInt8} {units : List LinkUnit} {text : Text}

theorem symbol_ne_empty : symbol unit ≠ "" := by
  unfold symbol symbolName
  rw [← String.ofList_nil, Ne, String.ofList_inj]
  exact append_ne_nil_of_left_ne_nil (by decide) _

theorem mem_symbols_foldl {name : String} :
    name ∈ (units.foldl (placeUnit code) text).symbols.map (·.1) ↔
      name ∈ text.symbols.map (·.1) ∨ ∃ unit ∈ units, symbol unit = name := by
  induction units generalizing text with
  | nil => simp
  | cons unit units ih =>
    rw [foldl_cons, ih, placeUnit, if_neg (symbol_ne_empty unit)]
    by_cases hname : symbol unit = name
    · simp [hname]
    · have hmem : name ∈ (text.symbols.filter (·.1 ≠ symbol unit)).map (·.1) ↔
          name ∈ text.symbols.map (·.1) := by
        simp only [mem_map, mem_filter, decide_eq_true_eq]
        constructor
        · rintro ⟨entry,⟨hentry,-⟩,rfl⟩
          exact ⟨entry,hentry,rfl⟩
        · rintro ⟨entry,hentry,rfl⟩
          exact ⟨entry,⟨hentry,Ne.symm hname⟩,rfl⟩
      rw [map_cons, mem_cons, hmem]
      simp [hname, Ne.symm hname]

theorem nodup_symbols_foldl (h : (text.symbols.map (·.1)).Nodup) :
    ((units.foldl (placeUnit code) text).symbols.map (·.1)).Nodup := by
  induction units generalizing text with
  | nil => exact h
  | cons unit units ih =>
    rw [foldl_cons]
    refine ih ?_
    rw [placeUnit, if_neg (symbol_ne_empty unit), map_cons, nodup_cons]
    refine ⟨?_,h.sublist (filter_sublist.map _)⟩
    simp

theorem length_symbols (code : LinkUnit → List UInt8) (units : List LinkUnit) :
    (placeUnits code units).symbols.length = (units.toFinset.image symbol).card := by
  have hnodup : ((placeUnits code units).symbols.map (·.1)).Nodup := nodup_symbols_foldl nodup_nil
  rw [← length_map (·.1), ← toFinset_card_of_nodup hnodup]
  congr 1
  ext name
  rw [mem_toFinset, placeUnits, mem_symbols_foldl]
  simp

end

/-- Different units of a program have different symbols, and the symbol table has an
entry for each of them. -/
def Unique (units : List LinkUnit) : Prop :=
  (∀ u ∈ units, ∀ v ∈ units, u ≠ v → symbol u ≠ symbol v) ∧
    (placeUnits code units).symbols.length = units.toFinset.card

/-- Symbols are unique exactly when no two units read as the same words. -/
theorem link_symbols_unique_iff (code : LinkUnit → List UInt8) (program : Program) :
    Unique code (lower program) ↔
      ∀ u ∈ lower program, ∀ v ∈ lower program, u ≠ v → words u ≠ words v := by
  rw [Unique, length_symbols, Finset.card_image_iff]
  constructor
  · rintro ⟨hsymbols,-⟩ u hu v hv hne hwords
    exact hsymbols u hu v hv hne (symbol_eq_iff.mpr hwords)
  · intro hwords
    refine ⟨fun u hu v hv hne hsymbol => hwords u hu v hv hne (symbol_eq_iff.mp hsymbol),?_⟩
    intro u hu v hv hsymbol
    by_contra hne
    exact hwords u (mem_toFinset.mp hu) v (mem_toFinset.mp hv) hne
      (symbol_eq_iff.mp hsymbol)

/-- Type `Disk` with method `io_read` and type `Disk_io` with method `read`, of one module. -/
def clashing : Program where
  events := []
  modules := [("app", [⟨"Disk",0,[⟨"io_read",false⟩],[],0,[]⟩,
    ⟨"Disk_io",0,[⟨"read",false⟩],[],0,[]⟩])]
  concreteMethods := []
  topicMethods := []
  imageModule := "app"
  imageName := "Image"
  phases := ["delegated_hardware", "owned_hardware"]

/-- The two methods get one symbol, and the table an entry less than there are units. -/
theorem joined_names_clash :
    lower clashing = [.method "app" "Disk" "io_read", .method "app" "Disk_io" "read",
      .phase "app" "Image" "delegated_hardware", .phase "app" "Image" "owned_hardware"] ∧
    symbol (.method "app" "Disk" "io_read") = symbol (.method "app" "Disk_io" "read") ∧
    (placeUnits (fun _ => [0xc3]) (lower clashing)).symbols.length = 3 := by
  decide

end Wrela.Symbols
