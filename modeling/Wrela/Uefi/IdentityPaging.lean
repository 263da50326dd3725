import Wrela.X86.Memory
import Wrela.Transition

/-!
# The builder of the identity page tables

`build_identity_paging` over memory, with the registers as local names. Comparisons
are signed, as the jumps of the routine are. Indices are found by repeated
subtraction and entries by stepping through a table, so every loop takes a
number of turns as a parameter; `none` is a routine that is still running.
-/

set_option autoImplicit false

namespace Wrela.IdentityPaging
open X86

/-- The memory and the offset of the next table (`r14`). -/
structure Tables where
  mem : Mem
  next : Word

/-- Words stored one after the other while the value goes up by a step; the
memory and the value afterwards. -/
def fillLoop (flags step : Word) : ℕ → Mem → Word → Word → Mem × Word
  | 0, m, _, v => (m, v)
  | n+1, m, a, v => fillLoop flags step n (store m a 8 (v+flags)) (a+8) (v+step)

def zeroLoop (words : ℕ) (m : Mem) (a : Word) : Mem := (fillLoop 0 0 words m a 0).1

section
variable (turns : ℕ)

/-- The address of an entry: the slot goes up while the index goes down to zero. -/
def slotLoop (table index : Word) : Option Word :=
  (WhileLoop.loop (fun s : Word × Word => !s.2.sle 0) (fun s => some (s.1+8, s.2-1)) turns
    (table, index)).map (·.1)

def reduceLoop (index : Word) : Option Word :=
  WhileLoop.loop (fun x : Word => !x.slt 512) (fun x => some (x-512)) turns index

variable (self : Word)

/-- The table that the entry for the index points to. An empty entry is given a
new table. -/
def mmioTable (table index : Word) (t : Tables) : Option (Word × Tables) :=
  (slotLoop turns table index).bind fun slot =>
  let child := load t.mem slot 8
  if child ≠ 0 then some (child, t)
  else
    let child := load t.mem self 8+t.next
    let m := zeroLoop 512 t.mem child
    some (child, ⟨store m slot 8 (child+3),t.next+4096⟩)

variable (pdpt : Word)

/-- The same for a descriptor's page, where the entry is sought a second time
after the new table is cleared. -/
def descriptorTable (page : Word) (t : Tables) : Option (Word × Tables) :=
  (slotLoop turns pdpt (page >>> 30)).bind fun slot =>
  let pd := load t.mem slot 8
  if pd ≠ 0 then some (pd, t)
  else
    let pd := load t.mem self 8+t.next
    let m := zeroLoop 512 t.mem pd
    (slotLoop turns pdpt (page >>> 30)).bind fun slot =>
    some (pd, ⟨store m slot 8 (pd+3),t.next+4096⟩)

def setPage (pd page : Word) (t : Tables) : Option Tables :=
  (reduceLoop turns (page >>> 21)).bind fun index =>
  (slotLoop turns (pd &&& 0xfffffffffffff000) index).bind fun slot =>
  some { t with mem := store t.mem slot 8 (page+0x83) }

/-- A table of pages is linked before it is filled; the page to come goes along. -/
def lowBody : Word × Word × Tables → Option (Word × Word × Tables)
  | (index, page, t) =>
    let pd := load t.mem self 8+t.next
    (slotLoop turns pdpt index).bind fun slot =>
    let m := store t.mem slot 8 (pd+3)
    let filled := fillLoop 0x83 0x200000 512 m pd page
    some (index+1, filled.2, ⟨filled.1,t.next+4096⟩)

def mapLow (t : Tables) : Option Tables :=
  (WhileLoop.loop (fun s => s.1.slt 4) (lowBody turns self pdpt) turns (0, 0, t)).map (·.2.2)

def descriptorPageBody : Word × Word × Tables → Option (Word × Word × Tables ⊕ Tables)
  | (page, count, t) =>
    if (page >>> 30).slt 512 = false then some (.inr t)
    else (descriptorTable turns self pdpt page t).bind fun (pd, t) =>
      (setPage turns pd page t).bind fun t =>
      some (.inl (page+0x200000, count-512, t))

def mapDescriptorPages (page count : Word) (t : Tables) : Option Tables :=
  (WhileLoop.run (fun s => !s.2.1.sle 0) (descriptorPageBody turns self pdpt) turns
    (page, count, t)).map (Sum.elim (·.2.2) id)

/-- A descriptor's first byte is at offset 8, its number of 4 KiB pages at 24. -/
def mapDescriptor (descriptor : Word) (t : Tables) : Option Tables :=
  let start := load t.mem (descriptor+8) 8
  let count := load t.mem (descriptor+24) 8
  if count.sle 0 then some t
  else (reduceLoop turns (start >>> 12)).bind fun before =>
    mapDescriptorPages turns self pdpt (start &&& 0xffffffffffe00000) (count+before) t

def descriptorBody (size : Word) : Word × Tables → Option (Word × Tables)
  | (descriptor, t) =>
    (mapDescriptor turns self pdpt descriptor t).map fun t => (descriptor+size, t)

def mapDescriptors (descriptors last size : Word) (t : Tables) : Option Tables :=
  (WhileLoop.loop (fun s => s.1.slt last) (descriptorBody turns self pdpt size) turns
    (descriptors, t)).map (·.2)

def mmioPageBody (root : Word) : Word × Tables → Option (Word × Tables ⊕ Tables)
  | (page, t) =>
    if (page >>> 39).slt 512 = false then some (.inr t)
    else (mmioTable turns self root (page >>> 39) t).bind fun (pdpt, t) =>
      (reduceLoop turns (page >>> 30)).bind fun index =>
      (mmioTable turns self (pdpt &&& 0xfffffffffffff000) index t).bind fun (pd, t) =>
      (setPage turns pd page t).bind fun t =>
      some (.inl (page+0x200000, t))

def mapMmioPages (root page last : Word) (t : Tables) : Option Tables :=
  (WhileLoop.run (fun s => s.1.slt last) (mmioPageBody turns self root) turns
    (page, t)).map (Sum.elim (·.2) id)

def mapMmio (root mmio : Word) (t : Tables) : Option Tables :=
  let base := load t.mem mmio 8
  let last := base+load t.mem (mmio+8) 8
  if base.sle 0 ∨ last.sle base then some t
  else mapMmioPages turns self root (base &&& 0xffffffffffe00000) last t

/-- The memory afterwards and the address of the root table. In the object are
the arena's base, its length and the next offset, in this order. -/
def buildIdentityPaging (m : Mem) (self memoryMap mmio : Word) : Option (Mem × Word) :=
  let root := (load m (self+16) 8+load m self 8+4095) &&& 0xfffffffffffff000
  let pdpt := root+4096
  let next := root-load m self 8+4096+4096
  let m := zeroLoop 1024 m root
  let m := store m root 8 (pdpt+3)
  (mapLow turns self pdpt ⟨m,next⟩).bind fun t =>
  let bytes := load t.mem memoryMap 8
  let descriptors := load t.mem bytes 8
  let last := load t.mem (bytes+8) 8+descriptors
  let size := load t.mem (memoryMap+8) 8
  (mapDescriptors turns self pdpt descriptors last size t).bind fun t =>
  (mapMmio turns self root mmio t).bind fun t =>
  some (store t.mem (self+16) 8 t.next, root)

end

end Wrela.IdentityPaging
