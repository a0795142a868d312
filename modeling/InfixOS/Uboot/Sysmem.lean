import InfixOS.Uboot.Mapping

/-! The memory that `blkmap_map_pmem` has mapped. A request that is turned down
gives it back; for one that is accepted the slice keeps it, together with a callback
to give it back. No one calls that. -/
namespace Uboot
open Exec

/-- The addresses that the slices have to give back. -/
def Blkmap.remapped (bm : Blkmap w) : List (Ptr w) :=
  bm.slices.filterMap fun bms =>
    match bms.target with
    | .mem addr true => some addr
    | _ => none

/-- How often an address is to be given back by blkmaps that are there. -/
def State.held (s : State w) (addr : Ptr w) : Nat :=
  (s.bound.map fun dev => (s.plat dev).remapped.count addr).sum

/-- Every address was mapped as often as it was unmapped and is still held. -/
def State.Balanced (s : State w) : Prop :=
  ∀ addr, s.sysmem.count (.map addr) = s.sysmem.count (.unmap addr) + s.held addr

/-- What a call does to mapped memory: a request that fails gives back what it has
had mapped, one that succeeds leaves it to its slice, and a blkmap gives back on its
end what its slices hold. -/
def Accounted (env : Env w) (s : State w) (call : Call w) : Prop :=
  ∃ events, (call.run env s).2.sysmem = s.sysmem ++ events ∧
    match call with
    | .create _ => events = []
    | .map dev blknr blkcnt kind =>
      match (mapAs env dev blknr blkcnt kind s).1 with
      | .error _ => events = (kind.remapped env blkcnt).map .map ++ (kind.remapped env blkcnt).map .unmap
      | .ok _ => events = (kind.remapped env blkcnt).map .map ∧ ∀ addr ∈ kind.remapped env blkcnt,
          ⟨blknr, blkcnt, .mem addr true⟩ ∈ ((mapAs env dev blknr blkcnt kind s).2.plat dev).slices
    | .destroy dev =>
      match (destroy env dev s).1 with
      | .error _ => events = []
      | .ok _ => events.Perm ((s.plat dev).remapped.map .unmap)

/-- No blkmap is destroyed that has to give memory back. -/
def Call.Spares (s : State w) : Call w → Prop
  | .create _ | .map .. => True
  | .destroy dev => (s.plat dev).remapped = []

section Counting
variable {α : Type}

theorem sum_map_update [DecidableEq α] {f : α → Nat} {xs : List α} (nodup : xs.Nodup) (member : x ∈ xs) (n : Nat) :
    (xs.map (Function.update f x n)).sum + f x = (xs.map f).sum + n := by
  induction xs with
  | nil => cases member
  | cons y rest ih =>
    obtain ⟨fresh, nodup⟩ := List.nodup_cons.mp nodup
    simp only [List.map_cons, List.sum_cons]
    rcases List.mem_cons.mp member with rfl | later
    · have others : rest.map (Function.update f x n) = rest.map f :=
        List.map_congr_left fun z inside => Function.update_of_ne (fun same : z = x => fresh (same ▸ inside)) _ _
      rw [others, Function.update_self]
      omega
    · have different : y ≠ x := fun same => fresh (same ▸ later)
      have := ih nodup later
      rw [Function.update_of_ne different]
      omega

end Counting

section Steps
variable {env : Env w} {s : State w}

/-- The devices are told apart by their numbers. -/
structure Numbered (s : State w) : Prop where
  nodup : s.bound.Nodup
  below : ∀ dev ∈ s.bound, dev < s.next

theorem held_setPlat (numbered : Numbered s) (bound : dev ∈ s.bound) (bm : Blkmap w) (addr : Ptr w) :
    (s.setPlat dev bm).held addr + (s.plat dev).remapped.count addr = s.held addr + bm.remapped.count addr := by
  have shape : (fun d => ((s.setPlat dev bm).plat d).remapped.count addr) =
      Function.update (fun d => (s.plat d).remapped.count addr) dev (bm.remapped.count addr) := by
    funext d
    by_cases here : d = dev
    · subst here
      simp
    · simp [Function.update_of_ne here]
  rw [State.held, setPlat_bound, shape]
  exact sum_map_update numbered.nodup bound _

theorem remapped_insert (bm : Blkmap w) (blknr blkcnt : Lba w) (env : Env w) (kind : Kind w)
    (passes : kind.refusal env blkcnt = none) :
    (bm.insert ⟨blknr, blkcnt, kind.target env blkcnt⟩).remapped.Perm (kind.remapped env blkcnt ++ bm.remapped) := by
  have moved := (insert_perm bm ⟨blknr, blkcnt, kind.target env blkcnt⟩).filterMap fun bms =>
    match bms.target with
    | .mem addr true => some addr
    | _ => none
  refine moved.trans (.of_eq ?_)
  cases kind with
  | mem addr => rfl
  | linear lblk lblknr => rfl
  | pmem paddr =>
    cases mapped : env.mapSysmem paddr (blkcnt <<< log2blksz) with
    | none => simp [Kind.refusal, mapped] at passes
    | some addr => simp [Kind.target, Kind.remapped, mapped, Blkmap.remapped]

/-- What is left of a blkmap that is on its way out. -/
def Blkmap.emptied (bm : Blkmap w) : Blkmap w := { bm with slices := [] }

@[simp] theorem remapped_emptied (bm : Blkmap w) : bm.emptied.remapped = [] := rfl

theorem destroy_outcome (env : Env w) (dev : Device) (s : State w) :
    (∃ e, destroy env dev s = (.error e, s)) ∨
    (∃ e, destroy env dev s = (.error e, s.setPlat dev (s.plat dev).emptied)) ∨
    destroy env dev s = (.ok (), { s.setPlat dev (s.plat dev).emptied with bound := s.bound.erase dev }) := by
  obtain ⟨_, _, _, _, _, removeErr, unbindErr, afterErr, removeBlkErr, unbindBlkErr⟩ := env
  cases removeErr with
  | some e => exact .inl ⟨e, rfl⟩
  | none =>
    cases unbindErr with
    | some e => exact .inl ⟨e, rfl⟩
    | none =>
      cases removeBlkErr with
      | some e => exact .inr (.inl ⟨e, rfl⟩)
      | none =>
        cases unbindBlkErr with
        | some e => exact .inr (.inl ⟨e, rfl⟩)
        | none =>
          cases afterErr with
          | some e => exact .inr (.inl ⟨e, rfl⟩)
          | none => exact .inr (.inr rfl)

theorem Reached.numbered {allowed : State w → Call w → Prop} (reached : Reached allowed s) : Numbered s := by
  induction reached with
  | start => exact ⟨.nil, by simp [State.start]⟩
  | @call s before env call live kind ih =>
    cases call with
    | create label =>
      cases run_create env label s with
      | inl same => rwa [same]
      | inr new =>
        rw [new]
        refine ⟨?_, ?_⟩
        · refine List.nodup_append.mpr ⟨ih.nodup, by simp, ?_⟩
          intro a old b fresh
          rw [List.mem_singleton.mp fresh]
          exact Nat.ne_of_lt (ih.below a old)
        · intro dev member
          change dev < s.next + 1
          rcases List.mem_append.mp member with old | fresh
          · exact Nat.lt_succ_of_lt (ih.below dev old)
          · rw [List.mem_singleton.mp fresh]
            exact Nat.lt_succ_self _
    | map dev blknr blkcnt how =>
      simp only [Call.run, mapAs_eq]
      split
      · exact ⟨ih.nodup, ih.below⟩
      split <;> exact ⟨ih.nodup, ih.below⟩
    | destroy dev =>
      rcases destroy_outcome env dev s with ⟨e, out⟩ | ⟨e, out⟩ | out
      · exact (congrArg Prod.snd out) ▸ ih
      · exact (congrArg Prod.snd out) ▸ ⟨ih.nodup, ih.below⟩
      · refine (congrArg Prod.snd out) ▸ ⟨ih.nodup.erase _, fun other member => ?_⟩
        exact ih.below other (List.mem_of_mem_erase member)

theorem count_map_maps (addrs : List (Ptr w)) (addr : Ptr w) :
    (addrs.map Sysmem.map).count (.map addr) = addrs.count addr :=
  List.count_map_of_injective _ _ (fun _ _ same => Sysmem.map.inj same) _

theorem count_unmap_unmaps (addrs : List (Ptr w)) (addr : Ptr w) :
    (addrs.map Sysmem.unmap).count (.unmap addr) = addrs.count addr :=
  List.count_map_of_injective _ _ (fun _ _ same => Sysmem.unmap.inj same) _

theorem count_map_unmaps (addrs : List (Ptr w)) (addr : Ptr w) :
    (addrs.map Sysmem.unmap).count (.map addr) = 0 :=
  List.count_eq_zero.mpr (by simp)

theorem count_unmap_maps (addrs : List (Ptr w)) (addr : Ptr w) :
    (addrs.map Sysmem.map).count (.unmap addr) = 0 :=
  List.count_eq_zero.mpr (by simp)

/-- What is mapped and unmapped at once does not count. -/
theorem State.Balanced.returned (balanced : s.Balanced) (addrs : List (Ptr w)) :
    (s.notes (addrs.map .map ++ addrs.map .unmap)).Balanced := by
  intro addr
  have same : (s.notes (addrs.map .map ++ addrs.map .unmap)).held addr = s.held addr := rfl
  have := balanced addr
  simp only [notes_sysmem, List.count_append, count_map_maps, count_map_unmaps, count_unmap_maps, count_unmap_unmaps,
    same]
  omega

theorem balanced_map (numbered : Numbered s) (balanced : s.Balanced) (bound : dev ∈ s.bound) (blknr blkcnt : Lba w)
    (kind : Kind w) : (mapAs env dev blknr blkcnt kind s).2.Balanced := by
  rw [mapAs_eq]
  split
  · exact balanced.returned _
  rename_i passes
  split
  · intro addr
    have held := held_setPlat numbered bound ((s.plat dev).insert ⟨blknr, blkcnt, kind.target env blkcnt⟩) addr
    rw [(remapped_insert (s.plat dev) blknr blkcnt env kind passes).count_eq, List.count_append] at held
    have := balanced addr
    change (s.sysmem ++ _).count _ = (s.sysmem ++ _).count _ + (s.setPlat dev _).held addr
    rw [List.count_append, List.count_append, count_map_maps, count_unmap_maps]
    omega
  · exact balanced.returned _

theorem balanced_destroy (numbered : Numbered s) (balanced : s.Balanced) (bound : dev ∈ s.bound)
    (spares : (s.plat dev).remapped = []) : (destroy env dev s).2.Balanced := by
  have emptied : (s.setPlat dev (s.plat dev).emptied).Balanced := by
    intro addr
    have held := held_setPlat numbered bound (s.plat dev).emptied addr
    have := balanced addr
    rw [spares, remapped_emptied] at held
    rw [setPlat_sysmem]
    omega
  rcases destroy_outcome env dev s with ⟨e, out⟩ | ⟨e, out⟩ | out
  · rwa [out]
  · rwa [out]
  · rw [out]
    intro addr
    have := emptied addr
    have erased := List.sum_map_erase
      (fun d => ((s.setPlat dev (s.plat dev).emptied).plat d).remapped.count addr) bound
    rw [setPlat_plat, Function.update_self, remapped_emptied, List.count_nil, Nat.zero_add] at erased
    rw [this, State.held, State.held, setPlat_bound, setPlat_plat, erased]

/-- The balance holds as long as no blkmap with mapped memory is destroyed. -/
theorem Reached.balanced (reached : Reached (fun s call => call.Spares s) s) : s.Balanced := by
  induction reached with
  | start => exact fun addr => rfl
  | @call s before env call live kind ih =>
    have numbered := before.numbered
    cases call with
    | create label =>
      cases run_create env label s with
      | inl same => rwa [same]
      | inr new =>
        rw [new]
        intro addr
        have := ih addr
        have others : s.bound.map (fun dev => ((s.created label).plat dev).remapped.count addr) =
            s.bound.map fun dev => (s.plat dev).remapped.count addr := by
          refine List.map_congr_left fun dev member => ?_
          have below := numbered.below dev member
          simp [State.created, Function.update_of_ne (Nat.ne_of_lt below)]
        have fresh : ((s.created label).plat s.next).remapped.count addr = 0 := by
          simp [State.created, Blkmap.remapped]
        change s.sysmem.count _ = s.sysmem.count _ + ((s.bound ++ [s.next]).map _).sum
        rw [List.map_append, List.sum_append, others, List.map_singleton, List.sum_singleton, fresh]
        exact this
    | map dev blknr blkcnt how => exact balanced_map numbered ih (live dev rfl) blknr blkcnt how
    | destroy dev => exact balanced_destroy numbered ih (live dev rfl) kind

theorem accounted_of_spares (spares : call.Spares s) : Accounted env s call := by
  cases call with
  | create label =>
    refine ⟨[], ?_, rfl⟩
    rw [List.append_nil]
    cases run_create env label s with
    | inl same => rw [same]
    | inr new => rw [new]; rfl
  | destroy dev =>
    have none : (s.plat dev).remapped = [] := spares
    refine ⟨[], ?_, ?_⟩
    · rw [List.append_nil]
      rcases destroy_outcome env dev s with ⟨e, out⟩ | ⟨e, out⟩ | out
      · exact congrArg (fun out => State.sysmem out.2) out
      · exact congrArg (fun out => State.sysmem out.2) out
      · exact congrArg (fun out => State.sysmem out.2) out
    · dsimp only
      split
      · rfl
      · rw [none]
        exact .nil
  | map dev blknr blkcnt kind =>
    simp only [Accounted, Call.run, mapAs_eq]
    cases passes : kind.refusal env blkcnt with
    | some e => exact ⟨_, rfl, rfl⟩
    | none =>
      dsimp only
      split
      · refine ⟨_, rfl, rfl, fun addr member => ?_⟩
        rw [notes_plat, setPlat_plat, Function.update_self, mem_insert]
        left
        cases kind with
        | mem _ => cases member
        | linear _ _ => cases member
        | pmem paddr =>
          have mapped : env.mapSysmem paddr (blkcnt <<< log2blksz) = some addr := Option.mem_toList.mp member
          simp [Kind.target, mapped]
      · exact ⟨_, rfl, rfl⟩

end Steps

/-- As long as no blkmap is destroyed that has to give memory back, every address
mapped for a blkmap is unmapped once: at once if the request fails, and otherwise it
is held by a blkmap that is there. -/
theorem sysmem_balanced {s : State w} (reached : Reached (fun s call => call.Spares s) s) :
    s.Balanced ∧
    (s.bound = [] → ∀ addr, s.sysmem.count (.map addr) = s.sysmem.count (.unmap addr)) ∧
    ∀ env call, call.Live s → call.Spares s → Accounted env s call := by
  refine ⟨reached.balanced, fun none addr => ?_, fun env call _ spares => accounted_of_spares spares⟩
  have balance := reached.balanced addr
  rwa [State.held, none] at balance

/-- A blkmap with memory mapped to its first block. -/
def ramdisk : State 64 :=
  (Call.run (obliging blksz) (.map 0 0 1 (.pmem 0x1000)) (Call.run (obliging blksz) (.create "ramdisk") .start).2).2

theorem ramdisk_reached (allowed : State 64 → Call 64 → Prop) (creates : ∀ s label, allowed s (.create label))
    (maps : ∀ s dev blknr blkcnt kind, allowed s (.map dev blknr blkcnt kind)) : Reached allowed ramdisk := by
  have created : Reached allowed (Call.run (obliging blksz) (.create "ramdisk") .start).2 :=
    .call .start _ _ (by simp [Call.Live, Call.device]) (creates _ _)
  refine .call created _ _ (fun dev same => ?_) (maps _ _ _ _ _)
  cases same
  decide +kernel

/-- The address is held, and a second request for the block gives it back at once. -/
theorem sysmem_balanced_ramdisk :
    ramdisk.Balanced ∧ Accounted (obliging blksz) ramdisk (.map 0 0 1 (.pmem 0x1000)) ∧
    (Call.run (obliging blksz) (.map 0 0 1 (.pmem 0x1000)) ramdisk).2.sysmem =
      [.map 0x1000, .map 0x1000, .unmap 0x1000] := by
  have reached : Reached (fun s call => call.Spares s) ramdisk :=
    ramdisk_reached _ (fun _ _ => trivial) fun _ _ _ _ _ => trivial
  have live : (Call.map 0 0 1 (.pmem 0x1000)).Live ramdisk := by
    intro dev same
    cases same
    decide +kernel
  exact ⟨(sysmem_balanced reached).1, (sysmem_balanced reached).2.2 _ _ live trivial, by decide +kernel⟩

/-- The blkmap is destroyed, and its memory stays mapped. -/
theorem destroyed_still_mapped :
    let after := (Call.run (obliging blksz) (.destroy 0) ramdisk).2
    Reached (fun _ _ => True) after ∧ after.bound = [] ∧ after.sysmem = [.map 0x1000] ∧
    ¬(after.sysmem.count (.map 0x1000) = after.sysmem.count (.unmap 0x1000)) := by
  have reached : Reached (fun _ _ => True) ramdisk :=
    ramdisk_reached _ (fun _ _ => trivial) fun _ _ _ _ _ => trivial
  have live : (Call.destroy 0).Live ramdisk := by
    intro dev same
    cases same
    decide +kernel
  exact ⟨.call reached _ _ live trivial, by decide +kernel, by decide +kernel, by decide +kernel⟩

end Uboot
