import InfixOS.Numeral.Scan
import InfixOS.Uboot.Mapping

/-! The subcommand `blkmap map` (cmd/blkmap.c) and the numbers on its command line.
`hextoul` and `dectoul` are `simple_strtoul` of the boot loader with base sixteen and
ten. What is printed is left out. -/
namespace Uboot
open Numeral

inductive CmdRet where
  | success
  | failure
  | usage
deriving DecidableEq, Repr

/-- The rest of the boot loader, for a command. -/
structure Console where
  /-- A 0x is taken also where a decimal number is read. It depends on the version. -/
  zeroX : Bool
  /-- `blk_get_devnum_by_uclass_idname`. -/
  devnum : String → BitVec 32 → Option Device

/-- `simple_strtoul`. -/
def strtoul (w : Nat) (zeroX : Bool) (base : Nat) (cp : List Char) : BitVec w :=
  match cp with
  | '0' :: x :: rest =>
    if zeroX ∧ (x = 'x' ∨ x = 'X') then scanWord w 16 rest 0 else scanWord w base cp 0
  | _ => scanWord w base cp 0

def hextoul (w : Nat) (cp : String) : BitVec w := strtoul w true 16 cp.toList

def dectoul (w : Nat) (console : Console) (cp : String) : BitVec w := strtoul w console.zeroX 10 cp.toList

/-- `struct map_ctx`. -/
structure MapCtx (w : Nat) where
  dev : Device
  blknr : Lba w
  blkcnt : Lba w

/-- What a handler returns after a request to map. -/
def cmdRet (result : Except Errno Unit × State w) : CmdRet × State w :=
  match result with
  | (.ok _, s) => (.success, s)
  | (.error _, s) => (.failure, s)

def doBlkmapMapLinear (env : Env w) (console : Console) (ctx : MapCtx w) (argv : List String) (s : State w) :
    CmdRet × State w :=
  match argv with
  | _ :: interface :: dev :: blk :: _ =>
    let ldevnum := (dectoul w console dev).setWidth 32
    let lblknr := dectoul w console blk
    match console.devnum interface ldevnum with
    | none => (.failure, s)
    | some lbd => cmdRet (mapLinear env ctx.dev ctx.blknr ctx.blkcnt lbd lblknr s)
  | _ => (.usage, s)

def doBlkmapMapMem (env : Env w) (ctx : MapCtx w) (argv : List String) (s : State w) : CmdRet × State w :=
  match argv with
  | _ :: addr :: _ => cmdRet (mapPmem env ctx.dev ctx.blknr ctx.blkcnt (hextoul w addr) s)
  | _ => (.usage, s)

def doBlkmapMap (env : Env w) (console : Console) (argv : List String) (s : State w) : CmdRet × State w :=
  match argv with
  | _ :: label :: blk :: cnt :: kind :: rest =>
    match fromLabel s label with
    | none => (.failure, s)
    | some dev =>
      let ctx : MapCtx w := ⟨dev, hextoul w blk, hextoul w cnt⟩
      if kind = "linear" then doBlkmapMapLinear env console ctx (kind :: rest) s
      else if kind = "mem" then doBlkmapMapMem env ctx (kind :: rest) s
      else (.usage, s)
  | _ => (.usage, s)

/-- `setexpr` with a division, whose result is stored in hexadecimal. -/
def setexprDiv (w : Nat) (a b : String) : String :=
  String.ofList (Nat.toDigits 16 (hextoul w a / hextoul w b).toNat)

/-- The ways in which the boot loader prints a number. -/
inductive Spelling where
  | plain
  | marked
deriving DecidableEq, Repr

def Spelling.spell (spelling : Spelling) (n : BitVec w) : String :=
  match spelling with
  | plain => String.ofList (Nat.toDigits 16 n.toNat)
  | marked => String.ofList ('0' :: 'x' :: Nat.toDigits 16 n.toNat)

/-- A number in this spelling is read as itself where a decimal number is expected. -/
def Console.ReadsDecimal (console : Console) (n : BitVec w) : Spelling → Prop
  | .plain => n.toNat < 10
  | .marked => console.zeroX = true ∨ n.toNat = 0

instance (console : Console) (n : BitVec w) (spelling : Spelling) : Decidable (console.ReadsDecimal n spelling) :=
  match spelling with
  | .plain => inferInstanceAs (Decidable (_ < _))
  | .marked => inferInstanceAs (Decidable (_ ∨ _))

section Numbers

theorem strtoul_digits {s : List Char} (digits : ∀ d ∈ s, decodeDigit d < 16) (zeroX : Bool) (base : Nat) :
    strtoul w zeroX base s = BitVec.ofNat w (scan base s 0) := by
  rw [← scanWord_ofNat, strtoul.eq_def]
  split
  · rename_i x rest
    have digit := digits x (by simp)
    rw [if_neg]
    · rfl
    · rintro ⟨_, rfl | rfl⟩
      · exact absurd digit (by decide)
      · exact absurd digit (by decide)
  · rfl

theorem strtoul_marked (base : Nat) (n : Nat) :
    strtoul w true base ('0' :: 'x' :: Nat.toDigits 16 n) = BitVec.ofNat w n := by
  have hex := scanWord_ofNat w 16 (Nat.toDigits 16 n) 0
  rw [scan_toDigits (by decide) (by decide)] at hex
  simpa [strtoul] using hex

/-- Both spellings are read back in base sixteen. -/
theorem hextoul_spell (spelling : Spelling) (n : BitVec w) : hextoul w (spelling.spell n) = n := by
  cases spelling with
  | plain =>
    rw [hextoul, Spelling.spell, String.toList_ofList, strtoul_digits (decodeDigit_toDigits (by decide) (by decide) _), scan_toDigits (by decide) (by decide)]
    simp
  | marked =>
    rw [hextoul, Spelling.spell, String.toList_ofList, strtoul_marked]
    simp

theorem ofNat_eq_iff {n : BitVec w} {value : Nat} (small : value ≤ n.toNat) : BitVec.ofNat w value = n ↔ value = n.toNat := by
  have bound : value < 2 ^ w := Nat.lt_of_le_of_lt small n.isLt
  rw [← BitVec.toNat_inj, BitVec.toNat_ofNat, Nat.mod_eq_of_lt bound]

theorem dectoul_spell_iff (console : Console) (spelling : Spelling) (n : BitVec w) :
    dectoul w console (spelling.spell n) = n ↔ console.ReadsDecimal n spelling := by
  cases spelling with
  | plain =>
    rw [dectoul, Spelling.spell, String.toList_ofList, strtoul_digits (decodeDigit_toDigits (by decide) (by decide) _),
      ofNat_eq_iff (scan_ten_le _).1, scan_ten_eq_iff]
    rfl
  | marked =>
    rw [dectoul, Spelling.spell, String.toList_ofList, Console.ReadsDecimal]
    cases console.zeroX with
    | true =>
      rw [strtoul_marked]
      simp
    | false =>
      -- the digits end with the x
      have zero : strtoul w false 10 ('0' :: 'x' :: Nat.toDigits 16 n.toNat) = BitVec.ofNat w 0 := by
        rw [strtoul, if_neg (by simp), show (0 : BitVec w) = BitVec.ofNat w 0 from rfl, scanWord_ofNat]
        simp [scan, decodeDigit]
      rw [zero, ofNat_eq_iff (Nat.zero_le _)]
      simp [eq_comm]

end Numbers

/-- The command has added the mapping that is asked for to the blkmap of that name. -/
def MapsTo (s s' : State w) (label : String) (blknr blkcnt lblknr : Lba w) : Prop :=
  ∃ dev lbd, fromLabel s label = some dev ∧ s' = s.setPlat dev ((s.plat dev).insert ⟨blknr, blkcnt, .linear lbd lblknr⟩)

theorem insert_inj {bm : Blkmap w} {a b : Slice w} (same : bm.insert a = bm.insert b) : a = b := by
  have slices : (a :: bm.slices).Perm (b :: bm.slices) :=
    (insert_perm bm a).symm.trans ((congrArg Blkmap.slices same) ▸ insert_perm bm b)
  exact (Multiset.cons_inj_left (bm.slices : Multiset (Slice w))).mp (Multiset.coe_eq_coe.mpr slices)

theorem mapLinear_success {env : Env w} {s s' : State w} {lblknr : Lba w}
    (ran : cmdRet (mapLinear env dev blknr blkcnt lbd lblknr s) = (.success, s')) :
    s' = s.setPlat dev ((s.plat dev).insert ⟨blknr, blkcnt, .linear lbd lblknr⟩) := by
  change cmdRet (mapAs env dev blknr blkcnt (.linear lbd lblknr) s) = _ at ran
  rw [mapAs_eq] at ran
  split at ran
  · simp [cmdRet] at ran
  · split at ran
    · simpa [cmdRet, Kind.target, Kind.remapped, notes_nil] using ran.symm
    · simp [cmdRet] at ran

/-- A mapping to another device is as its arguments are read. -/
theorem doBlkmapMap_linear {env : Env w} {console : Console} {s s' : State w}
    (ran : doBlkmapMap env console ["map", label, blk, cnt, "linear", interface, dev, lblk] s = (.success, s')) :
    ∃ device lbd, fromLabel s label = some device ∧
      s' = s.setPlat device ((s.plat device).insert ⟨hextoul w blk, hextoul w cnt, .linear lbd (dectoul w console lblk)⟩) := by
  rw [doBlkmapMap] at ran
  cases known : fromLabel s label with
  | none => simp [known] at ran
  | some device =>
    simp only [known, if_true, doBlkmapMapLinear] at ran
    split at ran
    · simp at ran
    · rename_i lbd _
      exact ⟨device, lbd, rfl, mapLinear_success ran⟩

theorem mapsTo_iff {env : Env w} {console : Console} {s s' : State w} {a b n : Lba w}
    (ran : doBlkmapMap env console ["map", label, blk, cnt, "linear", interface, dev, lblk] s = (.success, s'))
    (first : hextoul w blk = a) (count : hextoul w cnt = b) :
    MapsTo s s' label a b n ↔ dectoul w console lblk = n := by
  obtain ⟨device, lbd, known, mapped⟩ := doBlkmapMap_linear ran
  rw [first, count] at mapped
  constructor
  · rintro ⟨device', lbd', known', mapped'⟩
    cases known.symm.trans known'
    have plat := congrArg (fun t => t.plat device) (mapped.symm.trans mapped')
    simp only [setPlat_plat, Function.update_self] at plat
    have slice := insert_inj plat
    simp only [Slice.mk.injEq, Target.linear.injEq] at slice
    exact slice.2.2.2
  · intro same
    exact ⟨device, lbd, known, by rw [mapped, same]⟩

/-- The first two block arguments are always read as they are printed. The third is so
exactly if it is a single decimal digit, or carries a 0x that is understood there; so
the sequence of the guide works for images in the first ten blocks. -/
theorem linear_block_iff (env : Env w) (console : Console) (s s' : State w) (label interface dev : String)
    (a b : Lba w) (spellA spellB : Spelling) :
    (∀ (n : Lba w) (spelling : Spelling),
      doBlkmapMap env console ["map", label, spellA.spell a, spellB.spell b, "linear", interface, dev, spelling.spell n] s =
        (.success, s') →
      (MapsTo s s' label a b n ↔ console.ReadsDecimal n spelling)) ∧
    ∀ (position : Lba w) (spelling : Spelling),
      doBlkmapMap env console ["map", label, spellA.spell a, spellB.spell b, "linear", interface, dev,
        setexprDiv w (spelling.spell position) "0x200"] s = (.success, s') →
      (MapsTo s s' label a b (position / 0x200) ↔ (position / 0x200).toNat < 10) := by
  have answer : ∀ (n : Lba w) (spelling : Spelling),
      doBlkmapMap env console ["map", label, spellA.spell a, spellB.spell b, "linear", interface, dev, spelling.spell n] s =
        (.success, s') → (MapsTo s s' label a b n ↔ console.ReadsDecimal n spelling) := by
    intro n spelling ran
    rw [mapsTo_iff ran (hextoul_spell _ _) (hextoul_spell _ _), dectoul_spell_iff]
  refine ⟨answer, fun position spelling ran => ?_⟩
  have text : setexprDiv w (spelling.spell position) "0x200" = Spelling.plain.spell (position / 0x200) := by
    have divisor : hextoul w "0x200" = 0x200 := strtoul_marked 16 0x200
    rw [setexprDiv, hextoul_spell, divisor]
    rfl
  rw [text] at ran
  exact answer _ .plain ran

/-- A blkmap without mappings, as in the guide. -/
def squash : State 64 := (Call.run (obliging blksz) (.create "sq") .start).2

/-- A boot loader with one block device. -/
def oneDevice : Console := ⟨true, fun _ _ => some 7⟩

/-- The guide's command line, with what `setexpr` has stored. -/
def mapSquash (position : Lba 64) : CmdRet × State 64 :=
  doBlkmapMap (obliging blksz) oneDevice
    ["map", "sq", Spelling.plain.spell (0 : Lba 64), Spelling.plain.spell (0x100 : Lba 64), "linear", "mmc", "0",
      setexprDiv 64 (Spelling.marked.spell position) "0x200"] squash

theorem linear_block_iff_first :
    MapsTo squash (mapSquash 0x1000).2 "sq" 0 0x100 (0x1000 / 0x200) := by
  have ran : (mapSquash 0x1000).1 = .success := by decide +kernel
  have reads : ((0x1000 : Lba 64) / 0x200).toNat < 10 := by decide
  exact ((linear_block_iff (obliging blksz) oneDevice squash (mapSquash 0x1000).2 "sq" "mmc" "0" 0 0x100 .plain .plain).2
    0x1000 .marked (Prod.ext ran rfl)).mpr reads

/-- An image one megabyte into the device: block 0x800 of it is taken for block 800. -/
theorem block_read_as_decimal :
    (mapSquash 0x100000).1 = .success ∧
    ((mapSquash 0x100000).2.plat 0).slices = [⟨0, 0x100, .linear 7 800⟩] ∧
    ¬MapsTo squash (mapSquash 0x100000).2 "sq" 0 0x100 (0x100000 / 0x200) := by
  have slices : ((mapSquash 0x100000).2.plat 0).slices = [⟨0, 0x100, .linear 7 800⟩] := by decide +kernel
  refine ⟨by decide +kernel, slices, ?_⟩
  rintro ⟨dev, lbd, known, mapped⟩
  have first : fromLabel squash "sq" = some 0 := by decide +kernel
  cases first.symm.trans known
  rw [mapped] at slices
  have inserted : ((squash.plat 0).insert ⟨0, 0x100, .linear lbd (0x100000 / 0x200)⟩).slices =
      [⟨0, 0x100, .linear lbd (0x100000 / 0x200)⟩] := rfl
  rw [setPlat_plat, Function.update_self, inserted] at slices
  simp at slices

end Uboot
