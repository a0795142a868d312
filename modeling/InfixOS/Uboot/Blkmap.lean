import InfixOS.Exec.Program
import InfixOS.Extent.Layout
import Mathlib

/-! The block map driver of the boot loader (drivers/block/blkmap.c): virtual
block devices whose blocks are mapped, slice by slice, to memory or to another
block device. Here are its slices and the life of a device from `blkmap_create`
over the mappings to `blkmap_destroy`; the prefix `blkmap_` of names is left out.
`lbaint_t`, `ulong` and pointers are words of one width `w`, and their arithmetic
wraps around. -/
namespace Uboot
open Exec

abbrev Lba (w : Nat) := BitVec w

abbrev Ptr (w : Nat) := BitVec w

abbrev Device := Nat

inductive Errno where
  | EBUSY
  | ENOMEM
  | EINVAL
  /-- An error of the driver core. -/
  | other (code : Nat)
deriving DecidableEq

/-- What a slice is specialised to: `struct blkmap_mem` and `struct
blkmap_linear`. Its callbacks are given by the kind. -/
inductive Target (w : Nat) where
  | mem (addr : Ptr w) (remapped : Bool)
  | linear (blk : Device) (blknr : Lba w)
deriving DecidableEq

structure Slice (w : Nat) where
  blknr : Lba w
  blkcnt : Lba w
  target : Target w
deriving DecidableEq

/-- `struct blkmap`, with the size from the `struct blk_desc` of its block device. -/
structure Blkmap (w : Nat) where
  label : Option String
  slices : List (Slice w)
  lba : Lba w

def log2blksz : Nat := 9

def blksz : Nat := 512

/-- A call of `map_sysmem` that was answered, or one of `unmap_sysmem`. -/
inductive Sysmem (w : Nat) where
  | map (addr : Ptr w)
  | unmap (addr : Ptr w)
deriving DecidableEq

/-- The blkmaps of the driver model and the calls for mapped memory so far. -/
structure State (w : Nat) where
  plat : Device → Blkmap w
  bound : List Device
  /-- The next device to be allocated. -/
  next : Device
  sysmem : List (Sysmem w)

/-- What the rest of the boot loader answers during a call. -/
structure Env (w : Nat) where
  strdup : Bool
  malloc : Bool
  mapSysmem : (paddr len : BitVec w) → Option (Ptr w)
  blksz : Device → Nat
  /-- Errors of `device_bind_driver`; of `device_remove` and `device_unbind` for the
  blkmap, before its driver is called and after that; and of both for its block
  device. -/
  bindErr : Option Errno
  removeErr : Option Errno
  unbindErr : Option Errno
  afterErr : Option Errno
  removeBlkErr : Option Errno
  unbindBlkErr : Option Errno

abbrev Driver (w : Nat) := Program Errno (State w)

def State.setPlat (s : State w) (dev : Device) (bm : Blkmap w) : State w :=
  { s with plat := Function.update s.plat dev bm }

def State.note (s : State w) (event : Sysmem w) : State w := { s with sysmem := s.sysmem ++ [event] }

def Slice.contains (bms : Slice w) (blknr : Lba w) : Bool :=
  decide (bms.blknr ≤ blknr) && decide (blknr < bms.blknr + bms.blkcnt)

def sliceAvailable (slices : List (Slice w)) (new : Slice w) : Bool :=
  let first := new.blknr
  let last := new.blknr + new.blkcnt - 1
  slices.all fun bms =>
    !(bms.contains first || bms.contains last || new.contains bms.blknr ||
      new.contains (bms.blknr + bms.blkcnt - 1))

def diskSize (slices : List (Slice w)) (lba : Lba w) : Lba w :=
  match slices.getLast? with
  | none => lba
  | some bms => bms.blknr + bms.blkcnt

/-- A blkmap with one more slice: it goes before the first one that does not
start below it. -/
def Blkmap.insert (bm : Blkmap w) (new : Slice w) : Blkmap w :=
  let slices := bm.slices.orderedInsert (fun a b => a.blknr ≤ b.blknr) new
  { bm with slices := slices, lba := diskSize slices bm.lba }

def sliceAdd (dev : Device) (new : Slice w) : Driver w Unit := do
  let s ← Program.read
  let bm := s.plat dev
  if sliceAvailable bm.slices new then
    Program.update fun s => s.setPlat dev (bm.insert new)
  else
    Program.fail .EBUSY

def mapLinear (env : Env w) (dev : Device) (blknr blkcnt : Lba w) (lblk : Device) (lblknr : Lba w) :
    Driver w Unit :=
  if env.blksz lblk ≠ blksz then
    Program.fail .EINVAL
  else if env.malloc then
    sliceAdd dev ⟨blknr, blkcnt, .linear lblk lblknr⟩
  else
    Program.fail .ENOMEM

/-- `__blkmap_map_mem`. -/
def mapMemory (env : Env w) (dev : Device) (blknr blkcnt : Lba w) (addr : Ptr w) (remapped : Bool) :
    Driver w Unit :=
  if env.malloc then
    sliceAdd dev ⟨blknr, blkcnt, .mem addr remapped⟩
  else
    Program.fail .ENOMEM

def mapMem (env : Env w) (dev : Device) (blknr blkcnt : Lba w) (addr : Ptr w) : Driver w Unit :=
  mapMemory env dev blknr blkcnt addr false

def mapPmem (env : Env w) (dev : Device) (blknr blkcnt : Lba w) (paddr : Ptr w) : Driver w Unit :=
  match env.mapSysmem paddr (blkcnt <<< log2blksz) with
  | none => Program.fail .ENOMEM
  | some addr => do
    Program.update fun s => s.note (.map addr)
    Program.orUndo (mapMemory env dev blknr blkcnt addr true) fun s => s.note (.unmap addr)

/-- What the driver core does, or the error it stops with. -/
def answer (err : Option Errno) : Driver w Unit :=
  match err with
  | none => pure ()
  | some e => Program.fail e

def fromLabel (s : State w) (label : String) : Option Device :=
  s.bound.find? fun dev => (s.plat dev).label = some label

/-- `device_bind_driver`, with `blkmap_dev_bind`: no slices yet, and a disk of one
block since that of none is not liked. -/
def devBind (env : Env w) : Driver w Device := do
  answer env.bindErr
  let s ← Program.read
  Program.update fun s =>
    { s.setPlat s.next ⟨none, [], 1⟩ with bound := s.bound ++ [s.next], next := s.next + 1 }
  pure s.next

def create (env : Env w) (label : String) : Driver w Device := do
  let s ← Program.read
  if (fromLabel s label).isSome then
    Program.fail .EBUSY
  else if !env.strdup || !env.malloc then
    Program.fail .ENOMEM
  else do
    let dev ← devBind env
    Program.update fun s => s.setPlat dev { s.plat dev with label := some label }
    pure dev

/-- `blkmap_dev_unbind`: the slices are taken off the list and freed. -/
def devUnbind (env : Env w) (dev : Device) : Driver w Unit := do
  Program.update fun s => s.setPlat dev { s.plat dev with slices := [] }
  answer env.removeBlkErr
  answer env.unbindBlkErr

def destroy (env : Env w) (dev : Device) : Driver w Unit := do
  answer env.removeErr
  answer env.unbindErr
  devUnbind env dev
  answer env.afterErr
  Program.update fun s => { s with bound := s.bound.erase dev }

/-- The three ways to map, with what they are given apart from the blocks. -/
inductive Kind (w : Nat) where
  | mem (addr : Ptr w)
  | pmem (paddr : Ptr w)
  | linear (lblk : Device) (lblknr : Lba w)

inductive Call (w : Nat) where
  | create (label : String)
  | map (dev : Device) (blknr blkcnt : Lba w) (kind : Kind w)
  | destroy (dev : Device)

def mapAs (env : Env w) (dev : Device) (blknr blkcnt : Lba w) : Kind w → Driver w Unit
  | .mem addr => mapMem env dev blknr blkcnt addr
  | .pmem paddr => mapPmem env dev blknr blkcnt paddr
  | .linear lblk lblknr => mapLinear env dev blknr blkcnt lblk lblknr

def Call.run (env : Env w) : Call w → Driver w Unit
  | .create label => do
    let _ ← Uboot.create env label
    pure ()
  | .map dev blknr blkcnt kind => mapAs env dev blknr blkcnt kind
  | .destroy dev => Uboot.destroy env dev

def Call.device : Call w → Option Device
  | .create _ => none
  | .map dev .. | .destroy dev => some dev

/-- The device handed to a call is a blkmap. -/
def Call.Live (s : State w) (call : Call w) : Prop := ∀ dev ∈ call.device, dev ∈ s.bound

def State.start : State w := ⟨fun _ => ⟨none, [], 1⟩, [], 0, []⟩

/-- The states that calls of a kind lead to, whatever the rest of the boot loader
answers. -/
inductive Reached (allowed : State w → Call w → Prop) : State w → Prop
  | start : Reached allowed .start
  | call (before : Reached allowed s) (env : Env w) (call : Call w) (live : call.Live s)
      (kind : allowed s call) : Reached allowed (call.run env s).2

end Uboot
