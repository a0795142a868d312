import InfixOS.Uboot.Blkmap

/-! The slices of a blkmap under requests to map blocks. While no range runs over
the end of the block numbers each slice ends before the next one starts, and the
size is where the last one ends. -/
namespace Uboot
open Exec

/-- The blocks of a slice, as they would be without the wrap-around. -/
def Slice.extent (bms : Slice w) : Extent := ⟨bms.blknr.toNat, bms.blkcnt.toNat⟩

@[simp] theorem Slice.extent_first (bms : Slice w) : bms.extent.first = bms.blknr.toNat := rfl

@[simp] theorem Slice.extent_count (bms : Slice w) : bms.extent.count = bms.blkcnt.toNat := rfl

theorem Slice.extent_stop (bms : Slice w) : bms.extent.stop = bms.blknr.toNat + bms.blkcnt.toNat := rfl

/-- The range and also its end are block numbers. -/
def Slice.Fits (bms : Slice w) : Prop := bms.extent.stop < 2 ^ w

theorem Slice.Fits.toNat_stop {bms : Slice w} (fits : bms.Fits) :
    (bms.blknr + bms.blkcnt).toNat = bms.extent.stop := BitVec.toNat_add_of_lt fits

theorem Slice.Fits.contains_iff {bms : Slice w} (fits : bms.Fits) (blknr : Lba w) :
    bms.contains blknr = true ↔ bms.extent.Holds blknr.toNat := by
  simp only [Slice.contains, Bool.and_eq_true, decide_eq_true_eq, BitVec.le_def, BitVec.lt_def, fits.toNat_stop]
  rfl

theorem Slice.Fits.toNat_last {bms : Slice w} (fits : bms.Fits) (some : 0 < bms.blkcnt.toNat) :
    (bms.blknr + bms.blkcnt - 1).toNat = bms.extent.stop - 1 := by
  have bound := bms.blkcnt.isLt
  have one : (1 : Lba w).toNat = 1 := (BitVec.toNat_ofNat 1 w).trans (Nat.mod_eq_of_lt (by omega))
  have below : (1 : Lba w) ≤ bms.blknr + bms.blkcnt := by
    rw [BitVec.le_def, fits.toNat_stop, one, Slice.extent_stop]
    omega
  rw [BitVec.toNat_sub_of_le below, fits.toNat_stop, one]

/-- No slice has an end point of the new one, and none has one in it. -/
theorem sliceAvailable_iff (slices : List (Slice w)) (new : Slice w) :
    sliceAvailable slices new = true ↔ ∀ bms ∈ slices,
      ¬(bms.contains new.blknr = true ∨ bms.contains (new.blknr + new.blkcnt - 1) = true ∨
        new.contains bms.blknr = true ∨ new.contains (bms.blknr + bms.blkcnt - 1) = true) := by
  simp only [sliceAvailable, List.all_eq_true, Bool.not_eq_true', Bool.or_eq_false_iff, not_or,
    Bool.not_eq_true, and_assoc]

/-- For slices with blocks that is no block in common. -/
theorem sliceAvailable_iff_apart {slices : List (Slice w)} {new : Slice w} (fits : new.Fits)
    (some : 0 < new.blkcnt.toNat) (each : ∀ bms ∈ slices, bms.Fits ∧ 0 < bms.blkcnt.toNat) :
    sliceAvailable slices new = true ↔ ∀ bms ∈ slices, ¬new.extent.Meets bms.extent := by
  rw [sliceAvailable_iff]
  refine forall₂_congr fun bms member => not_congr ?_
  obtain ⟨fits', some'⟩ := each bms member
  rw [Extent.meets_iff_ends some some', fits'.contains_iff, fits'.contains_iff, fits.contains_iff,
    fits.contains_iff, fits.toNat_last some, fits'.toNat_last some']
  rfl

/-- What holds of a blkmap whose requests fit. -/
structure Sound (good : Slice w → Prop) (bm : Blkmap w) : Prop where
  stacked : Extent.Stacked Slice.extent bm.slices
  fits : ∀ bms ∈ bm.slices, bms.Fits
  good : ∀ bms ∈ bm.slices, good bms
  size : bm.lba = diskSize bm.slices 1

theorem diskSize_of_ne_nil {slices : List (Slice w)} (some : slices ≠ []) (lba lba' : Lba w) :
    diskSize slices lba = diskSize slices lba' := by
  simp [diskSize, List.getLast?_eq_some_getLast some]

theorem mem_insert (bm : Blkmap w) (new bms : Slice w) :
    bms ∈ (bm.insert new).slices ↔ bms = new ∨ bms ∈ bm.slices :=
  List.mem_orderedInsert _

theorem insert_perm (bm : Blkmap w) (new : Slice w) : (bm.insert new).slices.Perm (new :: bm.slices) :=
  List.perm_orderedInsert _ _ _

theorem insert_size (bm : Blkmap w) (new : Slice w) :
    (bm.insert new).lba = diskSize (bm.insert new).slices 1 := by
  have member : new ∈ (bm.insert new).slices := (mem_insert bm new new).mpr (.inl rfl)
  exact diskSize_of_ne_nil (List.ne_nil_of_mem member) _ _

theorem Sound.insert {P : Slice w → Prop} {bm : Blkmap w} {new : Slice w} (sound : Sound P bm)
    (fits : new.Fits) (kept : P new) (available : sliceAvailable bm.slices new = true) :
    Sound P (bm.insert new) where
  stacked := by
    have ends := (sliceAvailable_iff _ _).mp available
    refine sound.stacked.orderedInsert (fun _ _ => BitVec.le_def) (fun bms member below => ?_)
      fun bms member above => ?_
    -- the start of the new slice is not in one that starts below it
    · by_contra beyond
      refine ends bms member (.inl ?_)
      exact ((sound.fits bms member).contains_iff _).mpr ⟨Nat.le_of_lt below, Nat.lt_of_not_le beyond⟩
    -- and no later start is in the new one
    · by_contra beyond
      refine ends bms member (.inr (.inr (.inl ?_)))
      exact (fits.contains_iff _).mpr ⟨above, Nat.lt_of_not_le beyond⟩
  fits := by
    intro bms member
    cases (mem_insert bm new bms).mp member with
    | inl same => exact same ▸ fits
    | inr old => exact sound.fits bms old
  good := by
    intro bms member
    cases (mem_insert bm new bms).mp member with
    | inl same => exact same ▸ kept
    | inr old => exact sound.good bms old
  size := insert_size bm new

/-- All slices end where the disk does, or before. -/
theorem Sound.stop_le {P : Slice w → Prop} {bm : Blkmap w} (sound : Sound P bm) (member : bms ∈ bm.slices) :
    bms.extent.stop ≤ bm.lba.toNat := by
  have some := List.ne_nil_of_mem member
  have last : bm.lba.toNat = (bm.slices.getLast some).extent.stop := by
    rw [sound.size, diskSize, List.getLast?_eq_some_getLast some]
    exact (sound.fits _ (List.getLast_mem some)).toNat_stop
  rw [last]
  have shape := List.dropLast_concat_getLast some
  rw [← shape] at member
  cases List.mem_append.mp member with
  | inl early =>
    have stacked : Extent.Stacked Slice.extent (bm.slices.dropLast ++ [bm.slices.getLast some]) := by
      rw [shape]
      exact sound.stacked
    have before := (List.pairwise_append.mp stacked).2.2 bms early _ List.mem_cons_self
    exact Nat.le_trans before (Nat.le_add_right _ _)
  | inr same => exact List.mem_singleton.mp same ▸ Nat.le_refl _

section Requests
variable {env : Env w} {s : State w}

def State.notes (s : State w) (events : List (Sysmem w)) : State w := { s with sysmem := s.sysmem ++ events }

@[simp] theorem setPlat_plat (s : State w) (dev : Device) (bm : Blkmap w) :
    (s.setPlat dev bm).plat = Function.update s.plat dev bm := rfl

@[simp] theorem setPlat_bound (s : State w) (dev : Device) (bm : Blkmap w) :
    (s.setPlat dev bm).bound = s.bound := rfl

@[simp] theorem setPlat_sysmem (s : State w) (dev : Device) (bm : Blkmap w) :
    (s.setPlat dev bm).sysmem = s.sysmem := rfl

@[simp] theorem notes_plat (s : State w) (events : List (Sysmem w)) : (s.notes events).plat = s.plat := rfl

@[simp] theorem notes_bound (s : State w) (events : List (Sysmem w)) : (s.notes events).bound = s.bound := rfl

@[simp] theorem notes_sysmem (s : State w) (events : List (Sysmem w)) :
    (s.notes events).sysmem = s.sysmem ++ events := rfl

theorem notes_nil (s : State w) : s.notes [] = s := by simp [State.notes]

/-- Why a request is refused before the slices are looked at. -/
def Kind.refusal (env : Env w) (blkcnt : Lba w) : Kind w → Option Errno
  | .mem _ => if env.malloc then none else some .ENOMEM
  | .pmem paddr =>
    match env.mapSysmem paddr (blkcnt <<< log2blksz) with
    | none => some .ENOMEM
    | some _ => if env.malloc then none else some .ENOMEM
  | .linear lblk _ =>
    if env.blksz lblk ≠ blksz then some .EINVAL else if env.malloc then none else some .ENOMEM

/-- The address that a request has had mapped. -/
def Kind.remapped (env : Env w) (blkcnt : Lba w) : Kind w → List (Ptr w)
  | .pmem paddr => (env.mapSysmem paddr (blkcnt <<< log2blksz)).toList
  | .mem _ | .linear _ _ => []

/-- What the blocks of a request are mapped to. -/
def Kind.target (env : Env w) (blkcnt : Lba w) : Kind w → Target w
  | .mem addr => .mem addr false
  | .pmem paddr => .mem ((env.mapSysmem paddr (blkcnt <<< log2blksz)).getD 0) true
  | .linear lblk lblknr => .linear lblk lblknr

theorem sliceAdd_eq (dev : Device) (new : Slice w) (s : State w) :
    sliceAdd dev new s =
      if sliceAvailable (s.plat dev).slices new then (.ok (), s.setPlat dev ((s.plat dev).insert new))
      else (.error .EBUSY, s) := by
  refine (Program.bind_eq (show Program.read s = (.ok s, s) from rfl) _).trans ?_
  split <;> rfl

theorem mapMemory_eq (dev : Device) (blknr blkcnt : Lba w) (addr : Ptr w) (remapped : Bool) :
    mapMemory env dev blknr blkcnt addr remapped s =
      if env.malloc then sliceAdd dev ⟨blknr, blkcnt, .mem addr remapped⟩ s else (.error .ENOMEM, s) := by
  unfold mapMemory
  split <;> rfl

/-- What a request does: refused, busy or mapped, and memory that was mapped for it
is given back unless its slice is there. -/
theorem mapAs_eq (dev : Device) (blknr blkcnt : Lba w) (kind : Kind w) :
    mapAs env dev blknr blkcnt kind s =
      match kind.refusal env blkcnt with
      | some e => (.error e,
          s.notes ((kind.remapped env blkcnt).map .map ++ (kind.remapped env blkcnt).map .unmap))
      | none =>
        if sliceAvailable (s.plat dev).slices ⟨blknr, blkcnt, kind.target env blkcnt⟩ then
          (.ok (), (s.setPlat dev ((s.plat dev).insert ⟨blknr, blkcnt, kind.target env blkcnt⟩)).notes
            ((kind.remapped env blkcnt).map .map))
        else
          (.error .EBUSY,
            s.notes ((kind.remapped env blkcnt).map .map ++ (kind.remapped env blkcnt).map .unmap)) := by
  cases kind with
  | mem addr =>
    simp only [mapAs, mapMem, mapMemory_eq, Kind.refusal, Kind.remapped, Kind.target, List.map_nil, List.append_nil,
      notes_nil, sliceAdd_eq]
    cases env.malloc <;> rfl
  | linear lblk lblknr =>
    simp only [mapAs, mapLinear, Kind.refusal, Kind.remapped, Kind.target, List.map_nil, List.append_nil, notes_nil]
    by_cases size : env.blksz lblk ≠ blksz
    · simp only [if_pos size]
      rfl
    · simp only [if_neg size]
      cases env.malloc with
      | true => exact sliceAdd_eq _ _ _
      | false => rfl
  | pmem paddr =>
    simp only [mapAs, mapPmem, Kind.refusal, Kind.remapped, Kind.target]
    cases env.mapSysmem paddr (blkcnt <<< log2blksz) with
    | none =>
      simp only [Option.toList_none, List.map_nil, List.append_nil, notes_nil]
      rfl
    | some addr =>
      refine (Program.bind_eq (show Program.update _ s = (.ok (), s.note (.map addr)) from rfl) _).trans ?_
      simp only [Program.orUndo, mapMemory_eq, sliceAdd_eq, Option.toList_some, List.map_cons, List.map_nil,
        Option.getD_some]
      cases env.malloc with
      | false => simp [State.note, State.notes]
      | true =>
        simp only [if_true, show (s.note (.map addr)).plat = s.plat from rfl]
        cases sliceAvailable (s.plat dev).slices ⟨blknr, blkcnt, .mem addr true⟩ with
        | true => rfl
        | false => simp [State.note, State.notes]

/-- A new blkmap, without slices. -/
def State.created (s : State w) (label : String) : State w :=
  { s with plat := Function.update s.plat s.next ⟨some label, [], 1⟩, bound := s.bound ++ [s.next], next := s.next + 1 }

theorem create_state (env : Env w) (label : String) (s : State w) :
    (create env label s).2 = s ∨ (create env label s).2 = s.created label := by
  have start : create env label s = _ := Program.bind_eq (show Program.read s = (.ok s, s) from rfl) _
  rw [start]
  split
  · exact .inl rfl
  split
  · exact .inl rfl
  cases err : env.bindErr with
  | some e =>
    left
    have refused : devBind env s = (.error e, s) := by
      simp only [devBind, err]
      rfl
    rw [Program.bind_error refused]
  | none =>
    right
    have bound : devBind env s = (.ok s.next, { s.setPlat s.next ⟨none, [], 1⟩ with
        bound := s.bound ++ [s.next], next := s.next + 1 }) := by
      simp only [devBind, err]
      rfl
    rw [Program.bind_eq bound]
    refine (congrArg Prod.snd (Program.bind_eq (show Program.update _ _ = (.ok (), _) from rfl) _)).trans ?_
    simp [State.setPlat, State.created, pure, Program.ret]

theorem run_create (env : Env w) (label : String) (s : State w) :
    (Call.run env (.create label) s).2 = s ∨ (Call.run env (.create label) s).2 = s.created label := by
  have state : (Call.run env (.create label) s).2 = (create env label s).2 := by
    change (Program.andThen (create env label) _ s).2 = _
    unfold Program.andThen
    cases out : create env label s with
    | mk result t => cases result <;> rfl
  rw [state]
  exact create_state env label s

theorem Reached.mono {allowed allowed' : State w → Call w → Prop} (reached : Reached allowed s)
    (more : ∀ s call, allowed s call → allowed' s call) : Reached allowed' s := by
  induction reached with
  | start => exact .start
  | call before env call live kind ih => exact .call ih env call live (more _ call kind)

/-- The states that requests to map lead to, for a property of the slices they ask
for. No blkmap is destroyed. -/
theorem Reached.sound {P : Slice w → Prop} {allowed : State w → Call w → Prop}
    (mapped : ∀ s dev blknr blkcnt kind, allowed s (.map dev blknr blkcnt kind) →
      blknr.toNat + blkcnt.toNat < 2 ^ w ∧ ∀ target, P ⟨blknr, blkcnt, target⟩)
    (kept : ∀ s dev, ¬allowed s (.destroy dev)) (reached : Reached allowed s) (dev : Device) :
    Sound P (s.plat dev) := by
  have blank (label : Option String) : Sound P (⟨label, [], 1⟩ : Blkmap w) :=
    ⟨.nil, by simp, by simp, rfl⟩
  induction reached with
  | start => exact blank none
  | @call s before env call live kind ih =>
    cases call with
    | destroy dev => exact absurd kind (kept s dev)
    | create label =>
      cases run_create env label s with
      | inl same => rwa [same]
      | inr new =>
        rw [new]
        by_cases fresh : dev = s.next
        · subst fresh
          simpa [State.created] using blank (some label)
        · simpa [State.created, Function.update_of_ne fresh] using ih
    | map target blknr blkcnt how =>
      obtain ⟨fits, good⟩ := mapped s target blknr blkcnt how kind
      have fits : (⟨blknr, blkcnt, how.target env blkcnt⟩ : Slice w).Fits := fits
      simp only [Call.run, mapAs_eq]
      split
      · exact ih
      split
      · rename_i available
        by_cases here : dev = target
        · subst here
          simpa using ih.insert fits (good _) available
        · simpa [Function.update_of_ne here] using ih
      · exact ih

end Requests

/-- Blkmaps are created and blocks are mapped, at least one at a time and below the
end of the block numbers. -/
def Call.Orderly : Call w → Prop
  | .create _ => True
  | .map _ blknr blkcnt _ => 1 ≤ blkcnt.toNat ∧ blknr.toNat + blkcnt.toNat < 2 ^ w
  | .destroy _ => False

/-- The slices are in increasing order and no block is in two of them; the size is
the end of the highest one, or 1. -/
structure Arranged (bm : Blkmap w) : Prop where
  increasing : bm.slices.Pairwise fun a b => a.blknr < b.blknr
  apart : bm.slices.Pairwise fun a b => ¬a.extent.Meets b.extent
  initial : bm.slices = [] → bm.lba = 1
  highest : bm.slices ≠ [] → ∃ bms ∈ bm.slices, bm.lba.toNat = bms.extent.stop ∧
    ∀ other ∈ bm.slices, other.extent.stop ≤ bms.extent.stop

theorem Sound.arranged {bm : Blkmap w} (sound : Sound (fun bms => 0 < bms.blkcnt.toNat) bm) : Arranged bm where
  increasing := by
    refine sound.stacked.imp_of_mem fun {a b} member _ before => ?_
    have some := sound.good a member
    rw [BitVec.lt_def]
    rw [Slice.extent_stop, Slice.extent_first] at before
    omega
  apart := sound.stacked.layout.apart
  initial := by
    intro none
    rw [sound.size, none]
    rfl
  highest := by
    intro some
    have last : bm.lba.toNat = (bm.slices.getLast some).extent.stop := by
      rw [sound.size, diskSize, List.getLast?_eq_some_getLast some]
      exact (sound.fits _ (List.getLast_mem some)).toNat_stop
    exact ⟨_, List.getLast_mem some, last, fun other member => last ▸ sound.stop_le member⟩

/-- Over every sequence of requests the slices stay arranged. A request that is not
refused for want of memory or for the block size of its target is turned down as
busy exactly if it shares a block with a slice; then nothing changes, and otherwise
its slice is added. -/
theorem slices_arranged {s : State w} (reached : Reached (fun _ call => call.Orderly) s) :
    (∀ dev, Arranged (s.plat dev)) ∧
    ∀ env dev blknr blkcnt kind, (Call.map dev blknr blkcnt kind).Orderly →
      let out := mapAs env dev blknr blkcnt kind s
      let shares := ∃ bms ∈ (s.plat dev).slices, Extent.Meets ⟨blknr.toNat, blkcnt.toNat⟩ bms.extent
      (∀ e, kind.refusal env blkcnt = some e → out.1 = .error e ∧ out.2.plat = s.plat) ∧
      (kind.refusal env blkcnt = none → (out.1 = .error .EBUSY ↔ shares) ∧
        (shares → out.2.plat = s.plat) ∧
        (¬shares → out.1 = .ok () ∧ (∀ other ≠ dev, out.2.plat other = s.plat other) ∧
          (out.2.plat dev).slices.Perm (⟨blknr, blkcnt, kind.target env blkcnt⟩ :: (s.plat dev).slices))) := by
  have sound (dev : Device) : Sound (fun bms => 0 < bms.blkcnt.toNat) (s.plat dev) :=
    reached.sound (fun _ _ _ _ _ orderly => ⟨orderly.2, fun _ => orderly.1⟩) (fun _ _ orderly => orderly) dev
  refine ⟨fun dev => (sound dev).arranged, ?_⟩
  intro env dev blknr blkcnt kind orderly out shares
  have out_eq : out = _ := mapAs_eq dev blknr blkcnt kind
  have fits : (⟨blknr, blkcnt, kind.target env blkcnt⟩ : Slice w).Fits := orderly.2
  have available : sliceAvailable (s.plat dev).slices ⟨blknr, blkcnt, kind.target env blkcnt⟩ = true ↔ ¬shares := by
    rw [sliceAvailable_iff_apart fits orderly.1
      fun bms member => ⟨(sound dev).fits bms member, (sound dev).good bms member⟩]
    simp only [shares, not_exists, not_and]
    rfl
  refine ⟨fun e refused => ?_, fun passes => ?_⟩
  · rw [out_eq, refused]
    exact ⟨rfl, rfl⟩
  · rw [passes] at out_eq
    by_cases shared : shares
    · rw [if_neg fun free => available.mp free shared] at out_eq
      rw [out_eq]
      exact ⟨⟨fun _ => shared, fun _ => rfl⟩, fun _ => rfl, fun not => absurd shared not⟩
    · rw [if_pos (available.mpr shared)] at out_eq
      rw [out_eq]
      refine ⟨⟨by simp, fun shares => absurd shares shared⟩, fun shares => absurd shares shared, fun _ => ⟨rfl, ?_, ?_⟩⟩
      · intro other different
        exact Function.update_of_ne different _ _
      · rw [notes_plat, setPlat_plat, Function.update_self]
        exact insert_perm _ _

/-- A boot loader in which nothing fails, and whose block devices have blocks of the
given size. -/
def obliging (size : Nat) : Env 64 where
  strdup := true
  malloc := true
  mapSysmem paddr _ := some paddr
  blksz _ := size
  bindErr := none
  removeErr := none
  unbindErr := none
  afterErr := none
  removeBlkErr := none
  unbindBlkErr := none

/-- The first mapping of the driver's own test for slices. -/
def sliceTest : State 64 :=
  (Call.run (obliging blksz) (.map 0 8 8 (.mem 0)) (Call.run (obliging blksz) (.create "slicetest") .start).2).2

theorem sliceTest_reached : Reached (fun _ call => call.Orderly) sliceTest := by
  have created : Reached (fun _ call => call.Orderly) (Call.run (obliging blksz) (.create "slicetest") .start).2 :=
    .call .start _ _ (by simp [Call.Live, Call.device]) trivial
  have live : (Call.map 0 8 8 (.mem 0)).Live (Call.run (obliging blksz) (.create "slicetest") .start).2 := by
    intro dev same
    cases same
    decide
  exact .call created _ _ live ⟨by decide, by decide⟩

/-- The second request of that test: the low end of it is taken. -/
theorem slices_arranged_low_end :
    Reached (fun _ call => call.Orderly) sliceTest ∧
    ((mapAs (obliging blksz) 0 4 5 (.mem 0) sliceTest).1 = .error .EBUSY ↔
      ∃ bms ∈ (sliceTest.plat 0).slices, Extent.Meets ⟨4, 5⟩ bms.extent) := by
  have orderly : (Call.map 0 (4 : Lba 64) 5 (.mem 0)).Orderly := ⟨by decide, by decide⟩
  exact ⟨sliceTest_reached, (((slices_arranged sliceTest_reached).2 (obliging blksz) 0 4 5 (.mem 0) orderly).2 rfl).1⟩

/-- A device with blocks of another size is refused first, also where the blocks are
taken. -/
theorem block_size_refused_first :
    Reached (fun _ call => call.Orderly) sliceTest ∧ (Call.map 0 (4 : Lba 64) 5 (.linear 1 0)).Orderly ∧
    (∃ bms ∈ (sliceTest.plat 0).slices, Extent.Meets ⟨4, 5⟩ bms.extent) ∧
    (mapAs (obliging 4096) 0 4 5 (.linear 1 0) sliceTest).1 = .error .EINVAL := by
  refine ⟨sliceTest_reached, ⟨by decide, by decide⟩, ⟨⟨8, 8, .mem 0 false⟩, List.mem_cons_self, 8, ?_, ?_⟩, rfl⟩
  · exact ⟨by decide, by decide⟩
  · exact ⟨by decide, by decide⟩

/-- Blkmaps are created and blocks are mapped, in any numbers. -/
def Call.Maps : Call w → Prop
  | .create _ | .map .. => True
  | .destroy _ => False

/-- The requested range ends before the block numbers do. -/
def Call.Below : Call w → Prop
  | .create _ => True
  | .map _ blknr blkcnt _ => blknr.toNat + blkcnt.toNat < 2 ^ w
  | .destroy _ => False

/-- The block numbers of a slice, modulo the range of `lbaint_t`. -/
def Slice.Covers (bms : Slice w) (n : Lba w) : Prop := ∃ i < bms.blkcnt.toNat, n = bms.blknr + BitVec.ofNat w i

/-- No slice wraps around, no block number is in two slices, and none is above the
size. -/
structure Safe (bm : Blkmap w) : Prop where
  straight : ∀ bms ∈ bm.slices, bms.blknr.toNat + bms.blkcnt.toNat ≤ 2 ^ w
  apart : bm.slices.Pairwise fun a b => ∀ n, ¬(a.Covers n ∧ b.Covers n)
  size : ∀ bms ∈ bm.slices, ∀ n, bms.Covers n → n ≤ bm.lba

theorem Slice.Fits.holds_of_covers {bms : Slice w} (fits : bms.Fits) (covers : bms.Covers n) :
    bms.extent.Holds n.toNat := by
  obtain ⟨i, below, rfl⟩ := covers
  have bound : bms.blknr.toNat + i < 2 ^ w := by
    have := fits
    rw [Slice.Fits, Slice.extent_stop] at this
    omega
  have small : (BitVec.ofNat w i).toNat = i :=
    (BitVec.toNat_ofNat i w).trans (Nat.mod_eq_of_lt (by omega))
  have sum : (bms.blknr + BitVec.ofNat w i).toNat = bms.blknr.toNat + i := by
    rw [BitVec.toNat_add_of_lt (by rwa [small]), small]
  rw [sum]
  exact ⟨Nat.le_add_right _ _, Nat.add_lt_add_left below _⟩

/-- Requests whose ranges end below the last block number keep a blkmap safe, those
of no blocks included. -/
theorem requests_below_end_safe {s : State w} (reached : Reached (fun _ call => call.Below) s) (dev : Device) :
    Safe (s.plat dev) := by
  have sound : Sound (fun _ => True) (s.plat dev) :=
    reached.sound (fun _ _ _ _ _ below => ⟨below, fun _ => trivial⟩) (fun _ _ below => below) dev
  refine ⟨fun bms member => Nat.le_of_lt (sound.fits bms member), ?_, fun bms member n covers => ?_⟩
  · refine sound.stacked.layout.apart.imp_of_mem fun {a b} left right apart n both => ?_
    exact apart ⟨n.toNat, (sound.fits a left).holds_of_covers both.1, (sound.fits b right).holds_of_covers both.2⟩
  · have holds := (sound.fits bms member).holds_of_covers covers
    rw [BitVec.le_def]
    exact Nat.le_of_lt (Nat.lt_of_lt_of_le holds.2 (sound.stop_le member))

theorem requests_below_end_safe_slice_test :
    Reached (fun _ call => call.Below) sliceTest ∧ Safe (sliceTest.plat 0) := by
  have reached : Reached (fun _ call => call.Below) sliceTest :=
    sliceTest_reached.mono fun _ call orderly => by
      cases call with
      | create label => trivial
      | map dev blknr blkcnt kind => exact orderly.2
      | destroy dev => exact orderly
  exact ⟨reached, requests_below_end_safe reached 0⟩

/-- The last block is mapped twice, and then a range from the one before it on that
runs over the end. -/
def overTheEnd : State 64 :=
  let request blknr blkcnt s := (Call.run (obliging blksz) (.map 0 blknr blkcnt (.pmem 0x1000)) s).2
  request 0xfffffffffffffffe 4 (request 0xffffffffffffffff 1 (request 0xffffffffffffffff 1
    (Call.run (obliging blksz) (.create "ramdisk") .start).2))

/-- All three requests are accepted, and the disk has no blocks in the end. -/
theorem end_of_range_unsafe :
    Reached (fun _ call => call.Maps) overTheEnd ∧
    (overTheEnd.plat 0).slices = [⟨0xfffffffffffffffe, 4, .mem 0x1000 true⟩,
      ⟨0xffffffffffffffff, 1, .mem 0x1000 true⟩, ⟨0xffffffffffffffff, 1, .mem 0x1000 true⟩] ∧
    (overTheEnd.plat 0).lba = 0 ∧ ¬Safe (overTheEnd.plat 0) := by
  have slices : (overTheEnd.plat 0).slices = [⟨0xfffffffffffffffe, 4, .mem 0x1000 true⟩,
      ⟨0xffffffffffffffff, 1, .mem 0x1000 true⟩, ⟨0xffffffffffffffff, 1, .mem 0x1000 true⟩] := by decide +kernel
  refine ⟨?_, slices, by decide +kernel, fun safe => ?_⟩
  · have step {s : State 64} (before : Reached (fun _ call => call.Maps) s) (bound : s.bound = [0])
        (blknr blkcnt : Lba 64) :
        Reached (fun _ call => call.Maps) (Call.run (obliging blksz) (.map 0 blknr blkcnt (.pmem 0x1000)) s).2 :=
      .call before _ _ (fun dev same => by cases same; simp [bound]) trivial
    have created : Reached (fun _ call => call.Maps) (Call.run (obliging blksz) (.create "ramdisk") .start).2 :=
      .call .start _ _ (by simp [Call.Live, Call.device]) trivial
    exact step (step (step created (by decide +kernel) _ _) (by decide +kernel) _ _) (by decide +kernel) _ _
  · have straight := safe.straight ⟨0xfffffffffffffffe, 4, .mem 0x1000 true⟩ (slices ▸ List.mem_cons_self)
    exact absurd straight (by decide)

end Uboot
