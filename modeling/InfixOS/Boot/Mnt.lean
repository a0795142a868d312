import InfixOS.Exec.Program
import InfixOS.Posix.Mount

/-! The script board/common/rootfs/lib/infix/mnt, which puts something writable on
/cfg, /etc, /home, /root and /var. It runs under `set -e`. -/
namespace Boot
open Exec Posix

/-- The file systems mounted on /mnt/cfg, /mnt/var and /mnt/tmp. -/
inductive Disk where
  | cfg
  | var
  | tmp
  deriving DecidableEq, Repr

def targets : List Path := [["cfg"], ["etc"], ["home"], ["root"], ["var"], ["var", "lib"]]

/-- The root file system, and whether it is the NETCONF variant. -/
structure Image (α : Type) where
  root : Dir α
  netconf : Bool
  dirs : ∀ p ∈ targets, root p = some .dir

structure State (α : Type) where
  disks : Disk → Dir α
  mounts : List (Mount Disk)

variable {α : Type}

def State.set (s : State α) (disk : Disk) (d : Dir α) : State α := { s with disks := Function.update s.disks disk d }

/-- What is seen below the root directory. -/
def State.seen (s : State α) (image : Image α) : Dir α := Mount.view s.disks image.root s.mounts

abbrev Script (α : Type) := Program Unit (State α)

def mkdir (disk : Disk) (p : Path) : Script α Unit := fun s =>
  match (s.disks disk).mkdirP p with
  | some d => (.ok (), s.set disk d)
  | none => (.error (), s)

/-- `mount`, which needs two directories. -/
def mount (image : Image α) (m : Mount Disk) : Script α Unit := fun s =>
  if (s.disks m.source.1 m.source.2).any Node.isDir && (s.seen image m.target).any Node.isDir then
    (.ok (), { s with mounts := m :: s.mounts })
  else (.error (), s)

def mountBind (image : Image α) (src : Disk × Path) (dst : Path) : Script α Unit := do
  mkdir src.1 src.2
  Program.update fun s => s.set src.1
    ((s.disks src.1).graft src.2 (Dir.cpAf ((s.seen image).below dst) ((s.disks src.1).below src.2)))
  mount image (.bind src dst)

def mountOverlay (image : Image α) (tag : String) (src : Disk) (dst : Path) : Script α Unit := do
  mkdir src ["infix", tag ++ ".u"]
  mkdir src ["infix", tag ++ ".w"]
  mount image (.overlay (src, ["infix", tag ++ ".u"]) dst)

/-- The reset flag has been raised. -/
def flagged (cfg : Dir α) : Bool :=
  match cfg ["infix", ".reset"] with
  | some (.file _ _) => true
  | _ => false

/-- `rm -rf /mnt/cfg/infix /mnt/var/infix`, if the flag is there. -/
def factoryReset : Script α Unit := Program.update fun s =>
  if flagged (s.disks .cfg) then
    (s.set .cfg ((s.disks .cfg).rmRf ["infix"])).set .var ((s.disks .var).rmRf ["infix"])
  else s

/-- From the choice of the cfg partition to the overlay on /root. -/
def mountCfg (image : Image α) (hasCfg : Bool) : Script α Unit := do
  Program.onlyIf hasCfg do
    factoryReset
    mkdir .cfg ["infix"]
  let cfgsrc : Disk := if hasCfg then .cfg else .tmp
  let etcsrc : Disk := if hasCfg && !image.netconf then .cfg else .tmp
  mountOverlay image "cfg" cfgsrc ["cfg"]
  mountOverlay image "etc" etcsrc ["etc"]
  mountOverlay image "home" cfgsrc ["home"]
  mountOverlay image "root" cfgsrc ["root"]

/-- The script from the choice of /var on. The flags say whether the partitions were
found. -/
def mnt (image : Image α) (hasVar hasCfg : Bool) : Script α Unit := do
  Program.onlyIf hasVar (mountBind image (.var, []) ["var"])
  mountCfg image hasCfg
  Program.onlyIf (!hasVar) (mountOverlay image "var" .tmp ["var"])
  Program.onlyIf (!hasVar && hasCfg) (mountBind image (.cfg, ["vlib"]) ["var", "lib"])

/-- The partitions as a boot finds them; /mnt/tmp is a fresh RAM disk. -/
def powered (cfg var : Dir α) : State α :=
  ⟨fun disk => match disk with | .cfg => cfg | .var => var | .tmp => Dir.empty, []⟩

/-- What is seen after a boot with the partition cfg, and var if there is one. -/
def booted (image : Image α) (cfg : Dir α) (var : Option (Dir α)) : Dir α :=
  (mnt image var.isSome true (powered cfg (var.getD Dir.empty))).2.seen image

end Boot
