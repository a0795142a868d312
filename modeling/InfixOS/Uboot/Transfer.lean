import InfixOS.Uboot.Blkmap

/-! Reading and writing the blocks of a blkmap. Memory is addressed by bytes and
other block devices by blocks; the caller's buffer is an object of its own, of as
many blocks as are asked for, so that its blocks are numbered. What other devices
answer is a parameter. -/
namespace Uboot

abbrev Block := Fin blksz → UInt8

structure Store (w : Nat) where
  memory : Ptr w → UInt8
  disk : Device → Lba w → Block

/-- Where a block is: a block's worth of memory, or a block of a device. -/
inductive Place (w : Nat) where
  | mem (addr : Ptr w)
  | disk (blk : Device) (blknr : Lba w)
deriving DecidableEq

def Store.get (store : Store w) : Place w → Block
  | .mem addr => fun k => store.memory (addr + BitVec.ofNat w k)
  | .disk blk blknr => store.disk blk blknr

def Store.put (store : Store w) (block : Block) : Place w → Store w
  | .mem addr =>
    { store with memory := fun a =>
        if inside : (a - addr).toNat < blksz then block ⟨(a - addr).toNat, inside⟩ else store.memory a }
  | .disk blk blknr =>
    { store with disk := Function.update store.disk blk (Function.update (store.disk blk) blknr block) }

/-- What `blk_read` and `blk_write` return for a target device: the number of blocks
moved, or an error as a large number. -/
structure Host (w : Nat) where
  blkRead : (blk : Device) → (start blkcnt : Lba w) → Lba w
  blkWrite : (blk : Device) → (start blkcnt : Lba w) → Lba w

def moved (result blkcnt : Lba w) : Nat := if result ≤ blkcnt then result.toNat else 0

def copyIn (store : Store w) (buffer : Nat → Block) (offset : Nat) (place : Nat → Place w) (n : Nat) : Nat → Block :=
  fun j => if offset ≤ j ∧ j < offset + n then store.get (place (j - offset)) else buffer j

def copyOut (store : Store w) (buffer : Nat → Block) (offset : Nat) (place : Nat → Place w) : Nat → Store w
  | 0 => store
  | n + 1 => (copyOut store buffer offset place n).put (buffer (offset + n)) (place n)

/-- The blocks from a source or destination in memory on. -/
def memBlocks (addr : Ptr w) (blknr : Lba w) (i : Nat) : Place w :=
  .mem (addr + (blknr <<< log2blksz) + BitVec.ofNat w (i * blksz))

def diskBlocks (blk : Device) (start : Lba w) (i : Nat) : Place w := .disk blk (start + BitVec.ofNat w i)

/-- `blkmap_mem_read` and `blkmap_linear_read`. -/
def Slice.read (host : Host w) (store : Store w) (bms : Slice w) (blknr blkcnt : Lba w) (offset : Nat)
    (buffer : Nat → Block) : Lba w × (Nat → Block) :=
  match bms.target with
  | .mem addr _ => (blkcnt, copyIn store buffer offset (memBlocks addr blknr) blkcnt.toNat)
  | .linear blk lblknr =>
    let result := host.blkRead blk (lblknr + blknr) blkcnt
    (result, copyIn store buffer offset (diskBlocks blk (lblknr + blknr)) (moved result blkcnt))

/-- `blkmap_mem_write` and `blkmap_linear_write`. -/
def Slice.write (host : Host w) (buffer : Nat → Block) (bms : Slice w) (blknr blkcnt : Lba w) (offset : Nat)
    (store : Store w) : Lba w × Store w :=
  match bms.target with
  | .mem addr _ => (blkcnt, copyOut store buffer offset (memBlocks addr blknr) blkcnt.toNat)
  | .linear blk lblknr =>
    let result := host.blkWrite blk (lblknr + blknr) blkcnt
    (result, copyOut store buffer offset (diskBlocks blk (lblknr + blknr)) (moved result blkcnt))

structure Ask (w : Nat) where
  slice : Slice w
  blknr : Lba w
  blkcnt : Lba w

/-- The local variables of the loop, and the calls so far. -/
structure Cursor (w : Nat) where
  blknr : Lba w
  blkcnt : Lba w
  /-- How many blocks the buffer has moved on. -/
  buffer : Nat
  total : Lba w
  asked : List (Ask w)

/-- What `blkmap_blk_read_slice` and `blkmap_blk_write_slice` ask a slice for. -/
def Cursor.ask (c : Cursor w) (bms : Slice w) : Ask w :=
  ⟨bms, c.blknr - bms.blknr, if c.blkcnt < bms.blkcnt then c.blkcnt else bms.blkcnt⟩

def Cursor.advance (c : Cursor w) (ask : Ask w) (cnt : Lba w) : Cursor w :=
  ⟨c.blknr + cnt, c.blkcnt - cnt, c.buffer + cnt.toNat, c.total + cnt, c.asked ++ [ask]⟩

/-- The loop of `blkmap_blk_read` and `blkmap_blk_write` over the slices. -/
def transfer {σ : Type} (op : Slice w → (blknr blkcnt : Lba w) → Nat → σ → Lba w × σ) :
    List (Slice w) → Cursor w → σ → Cursor w × σ
  | [], c, s => (c, s)
  | bms :: rest, c, s =>
    if bms.contains c.blknr then
      let ask := c.ask bms
      let out := op bms ask.blknr ask.blkcnt c.buffer s
      transfer op rest (c.advance ask out.1) out.2
    else
      transfer op rest c s

def Cursor.start (blknr blkcnt : Lba w) : Cursor w := ⟨blknr, blkcnt, 0, 0, []⟩

/-- `blkmap_blk_read`: what it returns is `total`. -/
def blkRead (host : Host w) (store : Store w) (slices : List (Slice w)) (blknr blkcnt : Lba w)
    (buffer : Nat → Block) : Cursor w × (Nat → Block) :=
  transfer (Slice.read host store) slices (.start blknr blkcnt) buffer

def blkWrite (host : Host w) (slices : List (Slice w)) (blknr blkcnt : Lba w) (buffer : Nat → Block)
    (store : Store w) : Cursor w × Store w :=
  transfer (Slice.write host buffer) slices (.start blknr blkcnt) store

end Uboot
