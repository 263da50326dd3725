import Mathlib.Data.Nat.Bitwise
import Mathlib.Tactic.Ring
import Wrela.DepthSearch

/-!
# Enumeration of PCI functions

The functions of the configuration windows are found by scanning the first bus of each
window and the buses behind every bridge. Registers are read through the ports of the
configuration mechanism, whose address has no place for a segment: whatever the segment
of a window, the registers are those of segment 0. The scan of a device is taken as it
is compiled, with the labels its nested conditionals share.
-/

set_option autoImplicit false

namespace Wrela.Pci
open DepthSearch List Nat

abbrev Space := ℕ → ℕ → ℕ → ℕ → UInt32

abbrev Hardware := ℕ → Space

structure PcieEcamWindow where
  segment : ℕ
  startBus : UInt8
  endBus : UInt8

structure PciDeviceIdentity where
  segment : ℕ
  bus : ℕ
  device : ℕ
  function : ℕ
  vendorID : UInt32
  deviceID : UInt32
  classCode : UInt32
  subclass : UInt32
  progIf : UInt32
  revision : UInt32
  headerType : UInt32
  interruptPin : UInt32
  interruptLine : UInt32
  deriving DecidableEq

structure PciDevice where
  window : PcieEcamWindow
  identity : PciDeviceIdentity

/-! ### Reading registers -/

def ioConfigAddress (bus device function offset : ℕ) : ℕ :=
  let address := 0x80000000
  let address := address ||| bus <<< 16
  let address := address ||| device <<< 11
  let address := address ||| function <<< 8
  address ||| offset &&& 0xFC

def readIoConfig32 (hw : Hardware) (address : ℕ) : UInt32 :=
  hw 0 (address/2^16%2^8) (address/2^11%2^5) (address/2^8%2^3) (address%2^8/4*4)

def readConfig32 (hw : Hardware) (bus device function offset : ℕ) : UInt32 :=
  readIoConfig32 hw (ioConfigAddress bus device function offset)

def identityOf (segment bus device function : ℕ) (read : ℕ → UInt32) : PciDeviceIdentity where
  segment := segment
  bus := bus
  device := device
  function := function
  vendorID := read 0 &&& 0xFFFF
  deviceID := read 0 >>> 16
  classCode := read 8 >>> 24
  subclass := (read 8 >>> 16) &&& 0xFF
  progIf := (read 8 >>> 8) &&& 0xFF
  revision := read 8 &&& 0xFF
  headerType := (read 0x0C >>> 16) &&& 0xFF
  interruptPin := (read 0x3C >>> 8) &&& 0xFF
  interruptLine := read 0x3C &&& 0xFF

/-! ### The scan -/

abbrev PciDeviceSet := List PciDevice

variable (devices : PciDeviceSet)

def contains (window : PcieEcamWindow) (bus device function : ℕ) : Bool :=
  devices.any fun existing => existing.identity.segment = window.segment ∧
    existing.identity.bus = bus ∧ existing.identity.device = device ∧
    existing.identity.function = function

/-- `none` stands for a boot panic. -/
def append (hw : Hardware) (window : PcieEcamWindow) (devices : PciDeviceSet)
    (bus device function : ℕ) : Option PciDeviceSet :=
  if contains devices window bus device function then some devices
  else if devices.length ≥ 32 then none
  else some (devices++[⟨window,identityOf window.segment bus device function
    (readConfig32 hw bus device function)⟩])

/-- At function 0 the three outermost tests have the same labels: of all the ways
through them only the one with a vendor of zero comes to an assignment, and the test of
the multi-function bit is never reached. -/
def scannedFunctions (hw : Hardware) (bus device : ℕ) : List ℕ :=
  let vendorDevice := readConfig32 hw bus device 0 0
  if vendorDevice &&& 0xFFFF = 0 then [0] else List.range 8

def busRange (buses : UInt32) : List ℕ :=
  let secondary := ((buses >>> 8) &&& 0xFF).toNat
  let subordinate := ((buses >>> 16) &&& 0xFF).toNat
  List.range' secondary (subordinate+1-secondary)

def isBridge (classReg : UInt32) : Bool :=
  classReg >>> 24 = 0x06 && (classReg >>> 16) &&& 0xFF = 0x04

def scanFunction (hw : Hardware) (window : PcieEcamWindow)
    (scanBus : ℕ → PciDeviceSet → Option PciDeviceSet) (bus device function : ℕ)
    (devices : PciDeviceSet) : Option PciDeviceSet :=
  let vendorDevice := readConfig32 hw bus device function 0
  if vendorDevice &&& 0xFFFF = 0 then some devices
  else if vendorDevice &&& 0xFFFF = 0xFFFF then some devices
  else
    (append hw window devices bus device function).bind fun devices =>
      if isBridge (readConfig32 hw bus device function 8) then
        (busRange (readConfig32 hw bus device function 0x18)).foldlM (fun devices next =>
          scanBus next devices) devices
      else some devices

/-- A scan at depth `9-left`; below depth 8 it panics. -/
def scanBusDepth (hw : Hardware) (window : PcieEcamWindow) :
    ℕ → ℕ → PciDeviceSet → Option PciDeviceSet
  | 0, _, _ => none
  | left+1, bus, devices =>
    (List.range 32).foldlM (fun devices device =>
      (scannedFunctions hw bus device).foldlM (fun devices function =>
        scanFunction hw window (scanBusDepth hw window left) bus device function devices)
      devices) devices

def scanWindow (hw : Hardware) (devices : PciDeviceSet) (window : PcieEcamWindow) :
    Option PciDeviceSet :=
  scanBusDepth hw window 9 window.startBus.toNat devices

structure PcieEcamWindows where
  windows : List PcieEcamWindow
  room : windows.length ≤ 4

def PcieEcamWindows.enumerate (hw : Hardware) (windows : PcieEcamWindows) : Option PciDeviceSet :=
  if windows.windows.length = 0 then none else windows.windows.foldlM (scanWindow hw) []

/-! ### Functions and bridges of a space -/

structure Location where
  bus : ℕ
  device : ℕ
  function : ℕ
  deriving DecidableEq

section
variable (space : Space)

variable (loc : Location)

def answers : Bool :=
  let vendor := space loc.bus loc.device loc.function 0 &&& 0xFFFF
  vendor ≠ 0 && vendor ≠ 0xFFFF

def multiFunction (bus device : ℕ) : Bool :=
  answers space ⟨bus,device,0⟩ && space bus device 0 0x0C &&& 0x00800000 ≠ 0

/-- A function that is there: it answers, and its device has it. -/
def present : Bool :=
  answers space loc && (loc.function = 0 || multiFunction space loc.bus loc.device)

/-- A function that the scan takes for one: function 0 of its device need only have a
vendor other than zero. -/
def seen : Bool :=
  answers space loc && (loc.function = 0 || space loc.bus loc.device 0 0 &&& 0xFFFF ≠ 0)

def locationsOn (bus : ℕ) : List Location :=
  (List.range 32).flatMap fun device => (List.range 8).map (⟨bus,device,·⟩)

def functionsOn (bus : ℕ) : List Location := (locationsOn bus).filter (present space)

def seenOn (bus : ℕ) : List Location := (locationsOn bus).filter (seen space)

def busesBehind : List ℕ :=
  if isBridge (space loc.bus loc.device loc.function 8) then
    busRange (space loc.bus loc.device loc.function 0x18) else []

/-- A function on a bus that is reached from another one through bridges. -/
def Reachable (functions : ℕ → List Location) (start : ℕ) (loc : Location) : Prop :=
  ∃ bus, Relation.ReflTransGen (Behind functions (busesBehind space)) start bus ∧
    loc ∈ functions bus

/-- The bridges that are seen are nested at most eight deep. -/
def NestedBridges (start : ℕ) : Prop := Nested (seenOn space) (busesBehind space) 8 start

end

/-! ### The registers that are read -/

theorem or_shiftLeft (x : ℕ) {y i : ℕ} (h : y < 2^i) : x*2^i ||| y = x*2^i+y := by
  rw [← shiftLeft_eq, shiftLeft_add_eq_or_of_lt h]

variable {bus : ℕ} {loc : Location}

theorem ioConfigAddress_eq {device function : ℕ} (hbus : bus < 2^8) (hdevice : device < 2^5)
    (hfunction : function < 2^3) (offset : ℕ) :
    ioConfigAddress bus device function offset =
      2^31+bus*2^16+device*2^11+function*2^8+(offset &&& 0xFC) := by
  have hoffset : offset &&& 0xFC < 2^8 := lt_of_le_of_lt and_le_right (by decide)
  rw [ioConfigAddress, shiftLeft_eq, shiftLeft_eq, shiftLeft_eq]
  have htop : (0x80000000 ||| bus*2^16) = (2^15+bus)*2^16 := by
    refine (or_shiftLeft 1 (i := 31) (y := bus*2^16) (by omega)).trans ?_
    ring
  have hbuses : ((2^15+bus)*2^16 ||| device*2^11) = ((2^15+bus)*2^5+device)*2^11 := by
    rw [or_shiftLeft (2^15+bus) (by omega)]
    ring
  have hdevices : (((2^15+bus)*2^5+device)*2^11 ||| function*2^8) =
      (((2^15+bus)*2^5+device)*2^3+function)*2^8 := by
    rw [or_shiftLeft ((2^15+bus)*2^5+device) (by omega)]
    ring
  rw [htop, hbuses, hdevices, or_shiftLeft _ hoffset]
  ring

theorem readConfig32_eq (hw : Hardware) {device function offset : ℕ} (hbus : bus < 2^8)
    (hdevice : device < 2^5) (hfunction : function < 2^3)
    (hoffset : offset ∈ [0, 8, 0x0C, 0x18, 0x3C]) :
    readConfig32 hw bus device function offset = hw 0 bus device function offset := by
  rw [readConfig32, ioConfigAddress_eq hbus hdevice hfunction, readIoConfig32]
  have hmask : offset &&& 0xFC = offset ∧ offset < 2^8 ∧ offset%4 = 0 := by
    revert offset
    decide
  congr 1 <;> omega

theorem mem_busRange {buses : UInt32} (h : bus ∈ busRange buses) : bus < 2^8 := by
  rw [busRange, mem_range'_1] at h
  have hle : ((buses >>> 16) &&& 0xFF).toNat ≤ 0xFF := by
    exact and_le_right
  omega

section
variable {hw : Hardware} {window : PcieEcamWindow} {bus device function : ℕ}

theorem scannedFunctions_eq (hbus : bus < 2^8) (hdevice : device < 2^5) :
    scannedFunctions hw bus device =
      if hw 0 bus device 0 0 &&& 0xFFFF = 0 then [0] else List.range 8 := by
  rw [scannedFunctions, readConfig32_eq hw hbus hdevice (by decide) (by decide)]

theorem scanFunction_eq (scanBus : ℕ → PciDeviceSet → Option PciDeviceSet) (hbus : bus < 2^8)
    (hdevice : device < 2^5) (hfunction : function < 2^3) (devices : PciDeviceSet) :
    scanFunction hw window scanBus bus device function devices =
      if answers (hw 0) ⟨bus,device,function⟩ then
        (append hw window devices bus device function).bind fun devices =>
          (busesBehind (hw 0) ⟨bus,device,function⟩).foldlM (fun devices next =>
            scanBus next devices) devices
      else some devices := by
  rw [scanFunction, readConfig32_eq hw hbus hdevice hfunction (by decide),
    readConfig32_eq hw hbus hdevice hfunction (by decide),
    readConfig32_eq hw hbus hdevice hfunction (by decide), answers, busesBehind]
  by_cases hzero : hw 0 bus device function 0 &&& 0xFFFF = 0
  · simp [hzero]
  · by_cases hones : hw 0 bus device function 0 &&& 0xFFFF = 0xFFFF
    · simp [hones]
    · simp only [hzero, hones, if_false, ne_eq, not_false_eq_true, decide_true, Bool.and_self, if_true]
      split_ifs <;> rfl

theorem scanBusDepth_eq (left : ℕ) (hbus : bus < 2^8) (devices : PciDeviceSet) :
    scanBusDepth hw window left bus devices =
      visit (seenOn (hw 0)) (busesBehind (hw 0)) (fun devices loc =>
        append hw window devices loc.bus loc.device loc.function) left bus devices := by
  induction left generalizing bus devices with
  | zero => rfl
  | succ left ih =>
    rw [scanBusDepth, visit, seenOn, locationsOn, foldlM_filter, foldlM_flatMap]
    refine foldlM_congr (fun device hdevice devices => ?_) devices
    have hdevice : device < 2^5 := mem_range.mp hdevice
    rw [foldlM_map, scannedFunctions_eq hbus hdevice]
    have hscan : ∀ function < 2^3, ∀ devices, hw 0 bus device 0 0 &&& 0xFFFF ≠ 0 ∨ function = 0 →
        scanFunction hw window (scanBusDepth hw window left) bus device function devices =
          if seen (hw 0) ⟨bus,device,function⟩ then
            (append hw window devices bus device function).bind fun devices =>
              (busesBehind (hw 0) ⟨bus,device,function⟩).foldlM (fun devices next =>
                visit (seenOn (hw 0)) (busesBehind (hw 0)) (fun devices loc =>
                  append hw window devices loc.bus loc.device loc.function) left next devices) devices
          else pure devices := by
      intro function hfunction devices hlooked
      have hseen : seen (hw 0) ⟨bus,device,function⟩ = answers (hw 0) ⟨bus,device,function⟩ := by
        obtain h|h := hlooked <;> simp [seen, h]
      rw [scanFunction_eq _ hbus hdevice hfunction, hseen]
      split_ifs
      · refine congrArg _ (funext fun devices => foldlM_congr (fun next hnext devices => ?_) devices)
        refine ih ?_ devices
        rw [busesBehind] at hnext
        split_ifs at hnext
        · exact mem_busRange hnext
        · exact absurd hnext not_mem_nil
      · rfl
    by_cases hzero : hw 0 bus device 0 0 &&& 0xFFFF = 0
    · rw [if_pos hzero]
      have hrange : List.range 8 = 0::List.range' 1 7 := rfl
      rw [hrange, foldlM_cons, foldlM_cons, hscan 0 (by decide) devices (.inr rfl)]
      refine bind_congr fun devices => (foldlM_skip fun function hfunction => ?_).symm
      have hne : function ≠ 0 := by
        rw [mem_range'_1] at hfunction
        omega
      simp [seen, hne, hzero]
    · rw [if_neg hzero]
      exact foldlM_congr (fun function hfunction devices =>
        hscan function (mem_range.mp hfunction) devices (.inl hzero)) devices

end

/-! ### The set of devices -/

abbrev Place := ℕ × Location

def readIdentity (hw : Hardware) (place : Place) : PciDeviceIdentity :=
  identityOf place.1 place.2.bus place.2.device place.2.function
    (readConfig32 hw place.2.bus place.2.device place.2.function)

def addPlace (places : List Place) (place : Place) : Option (List Place) :=
  if place ∈ places then some places
  else if places.length ≥ 32 then none
  else some (places++[place])

theorem readIdentity_injective (hw : Hardware) : Function.Injective (readIdentity hw) := by
  rintro ⟨segment,bus,device,function⟩ ⟨segment',bus',device',function'⟩ h
  obtain ⟨rfl,rfl,rfl,rfl,-⟩ := h
  rfl

abbrev Found := PcieEcamWindow × Location

def Found.place (found : Found) : Place := (found.1.segment, found.2)

def Found.append (hw : Hardware) (devices : PciDeviceSet) (found : Found) : Option PciDeviceSet :=
  Pci.append hw found.1 devices found.2.bus found.2.device found.2.function

def identities : List PciDeviceIdentity := devices.map (·.identity)

section
variable {hw : Hardware} {devices : PciDeviceSet} {places : List Place}

theorem contains_iff (h : identities devices = places.map (readIdentity hw)) (found : Found) :
    contains devices found.1 found.2.bus found.2.device found.2.function ↔
      found.place ∈ places := by
  have hany : contains devices found.1 found.2.bus found.2.device found.2.function =
      (identities devices).any fun id => id.segment = found.1.segment ∧ id.bus = found.2.bus ∧
        id.device = found.2.device ∧ id.function = found.2.function := by
    rw [identities, any_map]
    rfl
  rw [hany, h, any_map, any_eq_true]
  constructor
  · rintro ⟨⟨segment,bus,device,function⟩,hplace,heq⟩
    obtain ⟨rfl,rfl,rfl,rfl⟩ := of_decide_eq_true heq
    exact hplace
  · intro hplace
    exact ⟨found.place,hplace,decide_eq_true ⟨rfl,rfl,rfl,rfl⟩⟩

theorem foldlM_append (more : List Found) (h : identities devices = places.map (readIdentity hw)) :
    (more.foldlM (Found.append hw) devices).map identities =
      ((more.map Found.place).foldlM addPlace places).map (List.map (readIdentity hw)) := by
  induction more generalizing devices places with
  | nil => exact congrArg some h
  | cons found more ih =>
    have hlength : devices.length = places.length := by
      have := congrArg List.length h
      rwa [identities, length_map, length_map] at this
    rw [map_cons, foldlM_cons, foldlM_cons, Found.append, append, addPlace]
    simp only [contains_iff h, hlength]
    by_cases hplace : found.place ∈ places
    · rw [if_pos hplace, if_pos hplace]
      exact ih h
    · rw [if_neg hplace, if_neg hplace]
      by_cases hfull : places.length ≥ 32
      · rw [if_pos hfull, if_pos hfull]
        rfl
      · rw [if_neg hfull, if_neg hfull]
        refine ih ?_
        rw [identities, map_append, map_append, ← identities, h]
        rfl

theorem addPlaces_isSome_iff {more : List Place} (hnodup : places.Nodup)
    (hlength : places.length ≤ 32) :
    (more.foldlM addPlace places).isSome ↔ (places.toFinset ∪ more.toFinset).card ≤ 32 := by
  induction more generalizing places with
  | nil =>
    have hcard := toFinset_card_of_nodup hnodup
    simp [hcard, hlength]
  | cons place more ih =>
    rw [foldlM_cons, addPlace, toFinset_cons, Finset.union_insert]
    by_cases hplace : place ∈ places
    · rw [if_pos hplace, Finset.insert_eq_of_mem
        (Finset.mem_union_left _ (mem_toFinset.mpr hplace))]
      exact ih hnodup hlength
    · rw [if_neg hplace]
      have hnodup' : (places++[place]).Nodup := by
        rw [nodup_append_comm]
        exact nodup_cons.mpr ⟨hplace,hnodup⟩
      have hset : (places++[place]).toFinset = insert place places.toFinset := by
        simp
      have hcard := toFinset_card_of_nodup hnodup'
      rw [hset, length_append, length_singleton] at hcard
      by_cases hfull : places.length ≥ 32
      · rw [if_pos hfull]
        have hsub : places.toFinset ⊆ places.toFinset ∪ more.toFinset := Finset.subset_union_left
        have hle := Finset.card_le_card (Finset.insert_subset_insert place hsub)
        refine iff_of_false Bool.false_ne_true ?_
        omega
      · rw [if_neg hfull]
        have hrest := ih hnodup' (by rw [length_append, length_singleton]; omega)
        rwa [hset, Finset.insert_union] at hrest

end

theorem mem_addPlaces {more places result : List Place} (hnodup : places.Nodup)
    (h : more.foldlM addPlace places = some result) :
    result.Nodup ∧ ∀ place, place ∈ result ↔ place ∈ places ∨ place ∈ more := by
  induction more generalizing places with
  | nil =>
    cases h
    exact ⟨hnodup,fun place => by simp⟩
  | cons place more ih =>
    obtain ⟨next,hnext,h⟩ := Option.bind_eq_some_iff.mp h
    rw [addPlace] at hnext
    split_ifs at hnext with hmem hlength
    · cases hnext
      obtain ⟨hresult,hiff⟩ := ih hnodup h
      refine ⟨hresult,fun other => (hiff other).trans ?_⟩
      rw [mem_cons]
      constructor
      · rintro (hother|hother)
        · exact .inl hother
        · exact .inr (.inr hother)
      · rintro (hother|rfl|hother)
        · exact .inl hother
        · exact .inl hmem
        · exact .inr hother
    · cases hnext
      have hnodup' : (places++[place]).Nodup := by
        rw [nodup_append_comm]
        exact nodup_cons.mpr ⟨hmem,hnodup⟩
      obtain ⟨hresult,hiff⟩ := ih hnodup' h
      refine ⟨hresult,fun other => (hiff other).trans ?_⟩
      rw [mem_append, mem_singleton, mem_cons, or_assoc]

/-! ### What enumeration finds -/

variable {more : List Found}

section
variable (hw : Hardware) (windows : List PcieEcamWindow) {start : ℕ} {window : PcieEcamWindow}

def foundThrough (window : PcieEcamWindow) : Option (List Found) :=
  (walk (seenOn (hw 0)) (busesBehind (hw 0)) 9 window.startBus.toNat).map (·.map (window, ·))

theorem foldlM_scanWindow :
    windows.foldlM (scanWindow hw) devices =
      (gather (foundThrough hw) windows).bind fun more => more.foldlM (Found.append hw) devices := by
  refine foldlM_gather (fun devices window => ?_) windows devices
  rw [scanWindow, scanBusDepth_eq 9 window.startBus.toNat_lt devices, visit_eq, foundThrough]
  cases walk (seenOn (hw 0)) (busesBehind (hw 0)) 9 window.startBus.toNat with
  | none => rfl
  | some locs =>
    rw [Option.map_some, Option.bind_some, Option.bind_some, foldlM_map]
    rfl

def identityIn (space : Space) (window : PcieEcamWindow) (loc : Location) : PciDeviceIdentity :=
  identityOf window.segment loc.bus loc.device loc.function (space loc.bus loc.device loc.function)

/-- The functions reachable from the first bus of a window in its own segment, with the
identity their own registers give. -/
def Expected (id : PciDeviceIdentity) : Prop :=
  ∃ window ∈ windows, ∃ loc,
    Reachable (hw window.segment) (functionsOn (hw window.segment)) window.startBus.toNat loc ∧
    id = identityIn (hw window.segment) window loc

/-- The functions seen in segment 0, with the identity its registers give. -/
def Shown (id : PciDeviceIdentity) : Prop :=
  ∃ window ∈ windows, ∃ loc, Reachable (hw 0) (seenOn (hw 0)) window.startBus.toNat loc ∧
    id = identityIn (hw 0) window loc

variable {hw windows}

theorem bus_lt_of_reach (hstart : start < 2^8)
    (h : Relation.ReflTransGen (Behind (seenOn (hw 0)) (busesBehind (hw 0))) start bus) :
    bus < 2^8 := by
  induction h with
  | refl => exact hstart
  | tail _ hbehind _ =>
    obtain ⟨loc,-,hnext⟩ := hbehind
    rw [busesBehind] at hnext
    split_ifs at hnext
    · exact mem_busRange hnext
    · exact absurd hnext not_mem_nil

theorem mem_locationsOn (h : loc ∈ locationsOn bus) :
    loc.bus = bus ∧ loc.device < 2^5 ∧ loc.function < 2^3 := by
  rw [locationsOn, mem_flatMap] at h
  obtain ⟨device,hdevice,hloc⟩ := h
  obtain ⟨function,hfunction,rfl⟩ := mem_map.mp hloc
  exact ⟨rfl,mem_range.mp hdevice,mem_range.mp hfunction⟩

theorem readIdentity_eq (hstart : start < 2^8) (h : Reachable (hw 0) (seenOn (hw 0)) start loc) :
    readIdentity hw (Found.place (window, loc)) = identityIn (hw 0) window loc := by
  obtain ⟨bus,hreach,hloc⟩ := h
  obtain ⟨rfl,hdevice,hfunction⟩ := mem_locationsOn (mem_filter.mp hloc).1
  have hbus := bus_lt_of_reach hstart hreach
  have hread : ∀ offset ∈ [0, 8, 0x0C, 0x18, 0x3C],
      readConfig32 hw loc.bus loc.device loc.function offset =
        hw 0 loc.bus loc.device loc.function offset :=
    fun offset => readConfig32_eq hw hbus hdevice hfunction
  simp only [readIdentity, identityIn, identityOf, Found.place]
  rw [hread 0 (by decide), hread 8 (by decide), hread 0x0C (by decide), hread 0x3C (by decide)]

theorem mem_found_iff (h : gather (foundThrough hw) windows = some more) {found : Found} :
    found ∈ more ↔
      found.1 ∈ windows ∧ Reachable (hw 0) (seenOn (hw 0)) found.1.startBus.toNat found.2 := by
  rw [mem_gather h]
  constructor
  · rintro ⟨window,hwindow,listed,hlisted,hfound⟩
    obtain ⟨locs,hlocs,rfl⟩ := Option.map_eq_some_iff.mp hlisted
    obtain ⟨loc,hloc,rfl⟩ := mem_map.mp hfound
    exact ⟨hwindow,(mem_walk_iff hlocs).mp hloc⟩
  · rintro ⟨hwindow,hreach⟩
    have hsome := gather_isSome_iff.mp (Option.isSome_iff_exists.mpr ⟨_,h⟩) found.1 hwindow
    rw [foundThrough, Option.isSome_map] at hsome
    obtain ⟨locs,hlocs⟩ := Option.isSome_iff_exists.mp hsome
    refine ⟨found.1,hwindow,locs.map (found.1, ·),by rw [foundThrough, hlocs]; rfl,?_⟩
    exact mem_map.mpr ⟨found.2,(mem_walk_iff hlocs).mpr hreach,rfl⟩

theorem shown_iff (h : gather (foundThrough hw) windows = some more) (id : PciDeviceIdentity) :
    Shown hw windows id ↔ ∃ place ∈ more.map Found.place, id = readIdentity hw place := by
  constructor
  · rintro ⟨window,hwindow,loc,hreach,rfl⟩
    refine ⟨_,mem_map.mpr ⟨(window, loc),(mem_found_iff h).mpr ⟨hwindow,hreach⟩,rfl⟩,?_⟩
    exact (readIdentity_eq window.startBus.toNat_lt hreach).symm
  · rintro ⟨_,hplace,rfl⟩
    obtain ⟨⟨window,loc⟩,hfound,rfl⟩ := mem_map.mp hplace
    obtain ⟨hwindow,hreach⟩ := (mem_found_iff h).mp hfound
    exact ⟨window,hwindow,loc,hreach,readIdentity_eq window.startBus.toNat_lt hreach⟩

theorem foundThrough_isSome_iff :
    (foundThrough hw window).isSome ↔ NestedBridges (hw 0) window.startBus.toNat := by
  rw [foundThrough, Option.isSome_map]
  exact walk_isSome_iff 8 _

end

theorem enumerate_identities {hw : Hardware} {windows : PcieEcamWindows}
    (hcount : 0 < windows.windows.length)
    (h : gather (foundThrough hw) windows.windows = some more) :
    (windows.enumerate hw).map identities =
      ((more.map Found.place).foldlM addPlace []).map (List.map (readIdentity hw)) := by
  rw [PcieEcamWindows.enumerate, if_neg hcount.ne', foldlM_scanWindow, h]
  exact foldlM_append more rfl

/-- Enumeration ends with the functions reachable through the windows, each once and with
the identity of its own segment, and nothing else. -/
def Complete (hw : Hardware) (windows : PcieEcamWindows) : Prop :=
  ∃ devices, windows.enumerate hw = some devices ∧ (identities devices).Nodup ∧
    ∀ id, id ∈ identities devices ↔ Expected hw windows.windows id

def sampleWindows (segment : ℕ) : PcieEcamWindows := ⟨[⟨segment,0,255⟩],by simp⟩

/-- A device with a bridge and another function, and one function behind the bridge. -/
def bridged : Space := fun bus device function offset =>
  if bus = 0 ∧ device = 1 ∧ function = 0 then
    if offset = 0 then 0x11AF4 else if offset = 8 then 0x06040000
    else if offset = 0x0C then 0x00810000 else if offset = 0x18 then 0x00010100 else 0
  else if bus = 0 ∧ device = 1 ∧ function = 1 then if offset = 0 then 0x21AF4 else 0
  else if bus = 1 ∧ device = 0 ∧ function = 0 then if offset = 0 then 0x31AF4 else 0
  else 0xFFFFFFFF

def bridgedFunctions : List Location := [⟨0,1,0⟩, ⟨0,1,1⟩, ⟨1,0,0⟩]

theorem answers_bridged (h : answers bridged loc) : loc ∈ bridgedFunctions := by
  by_contra hne
  obtain ⟨bus,device,function⟩ := loc
  simp only [bridgedFunctions, mem_cons, not_mem_nil, or_false, Location.mk.injEq, not_or] at hne
  simp only [answers, bridged, hne.1, hne.2.1, hne.2.2, if_false] at h
  exact absurd h (by decide)

theorem seen_bridged : seenOn bridged = functionsOn bridged := by
  funext bus
  refine filter_congr fun loc _ => ?_
  cases h : answers bridged loc with
  | false => simp [seen, present, h]
  | true =>
    have hall : ∀ loc ∈ bridgedFunctions, seen bridged loc = present bridged loc := by decide
    exact hall loc (answers_bridged h)

theorem mem_functionsOn_bridged (h : loc ∈ functionsOn bridged bus) : loc ∈ bridgedFunctions := by
  have hpresent := (mem_filter.mp h).2
  rw [present, Bool.and_eq_true] at hpresent
  exact answers_bridged hpresent.1

theorem behind_bridged {next : ℕ} (h : Behind (functionsOn bridged) (busesBehind bridged) bus next) :
    bus = 0 ∧ next = 1 := by
  obtain ⟨loc,hloc,hnext⟩ := h
  have hall : ∀ loc ∈ bridgedFunctions, ∀ next ∈ busesBehind bridged loc,
      loc.bus = 0 ∧ next = 1 := by decide
  rw [← (mem_locationsOn (mem_filter.mp hloc).1).1]
  exact hall loc (mem_functionsOn_bridged hloc) next hnext

/-- One function, in segment 0. -/
def sampleHardware : Hardware := fun segment bus device function offset =>
  if segment = 0 ∧ bus = 0 ∧ device = 3 ∧ function = 0 then if offset = 0 then 0x11E81234 else 0
  else 0xFFFFFFFF

end Wrela.Pci
