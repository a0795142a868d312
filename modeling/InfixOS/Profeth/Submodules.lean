import InfixOS.Profeth.ProcessData

/-! What the table of submodules holds after a history of requests. Slots below
`PNET_MAX_SUBSLOTS` follow p-net until a module is pulled with its submodules; in the others
nothing that was plugged is pulled again. -/
namespace Profeth

variable {build : Build} {device : Device} {slot n : Nat} {requests : List Request}

/-- The entry of a submodule that p-net has plugged. -/
def entryFor (slot subslot : Nat) (submodule : Submodule) (expData : DataCfg) : Subslot :=
  match appGsdmlGetSubmoduleCfg submodule with
  | some cfg => ⟨true, true, slot, subslot, submodule, cfg.dataCfg,
      decide (0 < cfg.dataCfg.insize ∨ 0 < cfg.dataCfg.outsize)⟩
  | none => ⟨true, true, slot, subslot, submodule, expData, false⟩

/-- The first unused entry of a slot is taken. -/
def put (entry : Subslot) (subslots : List Subslot) : List Subslot :=
  match subslots.findIdx? fun s => !s.used with
  | some i => subslots.set i entry
  | none => subslots

/-- The first entry with the number is cleared. -/
def remove (subslot : Nat) (subslots : List Subslot) : List Subslot :=
  match subslots.findIdx? fun s => s.subslotNbr = subslot with
  | some i => subslots.set i .zero
  | none => subslots

/-- What a request does to the entries of one slot. -/
def change (build : Build) (slot : Nat) (subslots : List Subslot) : Request → List Subslot
  | .expSubmodule s n submodule expData pulled plugged =>
    if s = slot then
      let subslots := if pulled ∧ s < build.pnetMaxSubslots then remove n subslots else subslots
      if plugged then put (entryFor s n submodule expData) subslots else subslots
    else subslots
  | _ => subslots

/-- The entries of a slot after some requests. -/
def entered (build : Build) (slot : Nat) (requests : List Request) : List Subslot :=
  requests.foldl (change build slot) (List.replicate build.pnetMaxSubslots .zero)

theorem entered_concat (requests : List Request) (request : Request) :
    entered build slot (requests ++ [request]) = change build slot (entered build slot requests) request :=
  List.foldl_concat ..

theorem appDataWriteParameter_slots {after : Device} {submodule : Submodule} {data : List Byte} {i : Nat}
    (wrote : appDataWriteParameter device submodule i data = some after) : after.slots = device.slots := by
  simp only [appDataWriteParameter, Option.bind_eq_bind, Option.bind_eq_some_iff] at wrote
  obtain ⟨cfg, -, wrote⟩ := wrote
  grind

theorem appExpSubmoduleInd_slots (s n : Nat) (submodule : Submodule) (expData : DataCfg)
    (pulled plugged : Bool) :
    (appExpSubmoduleInd build device s n submodule expData pulled plugged).1.slots =
      let slots := if pulled then appUtilsPullSubmodule build.pnetMaxSubslots device.slots s n
        else device.slots
      if plugged then slots.modify s (put (entryFor s n submodule expData)) else slots := by
  unfold appExpSubmoduleInd entryFor
  cases plugged with
  | false => rfl
  | true => cases appGsdmlGetSubmoduleCfg submodule <;> rfl

theorem handle_slot (request : Request) : (handle build device request).1.slots[slot]? =
    device.slots[slot]?.map (change build slot · request) := by
  have same : device.slots[slot]? = device.slots[slot]?.map fun subslots => subslots := by simp
  cases request with
  | expModule s moduleIdent pulled plugged =>
    obtain ⟨modules, unchanged⟩ := expModule_frame device build s moduleIdent pulled plugged
    rw [handle, unchanged]
    exact same
  | expSubmodule s n submodule expData pulled plugged =>
    simp only [handle, appExpSubmoduleInd_slots]
    have pull : appUtilsPullSubmodule build.pnetMaxSubslots device.slots s n =
        if s < build.pnetMaxSubslots then device.slots.modify s (remove n) else device.slots := by
      unfold appUtilsPullSubmodule
      split
      case isTrue high => rw [if_neg (by omega)]
      case isFalse low => rw [if_pos (by omega)]; rfl
    rw [pull]
    by_cases low : s < build.pnetMaxSubslots
    all_goals
      by_cases here : s = slot
      · subst here
        cases pulled <;> cases plugged <;> simp [change, low, Function.comp_def]
      · cases pulled <;> cases plugged <;> simp [change, low, here]
  | write s n i data =>
    simp only [handle, appWriteInd]
    split
    · exact same
    · split
      case _ wrote => rw [appDataWriteParameter_slots wrote]; exact same
      · exact same
  | read s n i length => exact same
  | release => exact (congrArg (·[slot]?) (default_config device).slots).trans same
  | abort => exact (congrArg (·[slot]?) (default_config device).slots).trans same
  | newDataStatus isRunning isValid =>
    simp only [handle, appNewDataStatusInd]
    split
    · exact (congrArg (·[slot]?) (default_config device).slots).trans same
    · exact same
  | poll received buttonPressed =>
    exact (congrArg (·[slot]?) (pollSubslots_config device received buttonPressed build _).slots).trans same

theorem run_slot (within : slot < build.pnetMaxSlots) (requests : List Request) :
    (run build requests).device.slots[slot]? = some (entered build slot requests) := by
  induction requests using List.reverseRecOn with
  | nil => simp [Build.start, within, entered]
  | append_singleton requests request ih =>
    rw [run_concat, entered_concat]
    exact handle_slot request |>.trans (by rw [ih]; rfl)

section High

/-- The entry of a request that p-net has accepted. -/
def accepted (slot : Nat) : Request → Option Subslot
  | .expSubmodule s n submodule expData _ true =>
    if s = slot then some (entryFor s n submodule expData) else none
  | _ => none

theorem entryFor_used (slot subslot : Nat) (submodule : Submodule) (expData : DataCfg) :
    (entryFor slot subslot submodule expData).used = true := by
  unfold entryFor
  split <;> rfl

theorem accepted_used {request : Request} {entry : Subslot} (plugged : accepted slot request = some entry) :
    entry.used = true := by
  unfold accepted at plugged
  split at plugged
  · split at plugged
    · cases plugged
      exact entryFor_used ..
    · cases plugged
  · cases plugged

/-- Behind entries that are used. -/
theorem put_append {live rest : List Subslot} (used : ∀ s ∈ live, s.used = true) (entry : Subslot) :
    put entry (live ++ rest) = live ++ put entry rest := by
  have skipped : live.findIdx? (fun s => !s.used) = none :=
    List.findIdx?_eq_none_iff.mpr fun s member => by simp [used s member]
  unfold put
  rw [List.findIdx?_append, skipped]
  cases rest.findIdx? fun s => !s.used with
  | none => rfl
  | some i => simp

theorem change_high (high : build.pnetMaxSubslots ≤ slot) (subslots : List Subslot) (request : Request) :
    change build slot subslots request =
      match accepted slot request with
      | some entry => put entry subslots
      | none => subslots := by
  cases request with
  | expModule s moduleIdent pulled plugged => rfl
  | expSubmodule s n submodule expData pulled plugged =>
    simp only [change, accepted]
    by_cases here : s = slot
    · subst here
      have stays : ¬ (pulled = true ∧ s < build.pnetMaxSubslots) := fun both => by omega
      rw [if_pos rfl, if_neg stays]
      cases plugged <;> simp
    · cases plugged <;> simp [here]
  | write s n i data => rfl
  | read s n i length => rfl
  | release => rfl
  | abort => rfl
  | newDataStatus isRunning isValid => rfl
  | poll received buttonPressed => rfl

/-- A slot from `PNET_MAX_SUBSLOTS` on holds the first submodules that p-net has ever accepted
for it, as many as it has entries. -/
theorem high_slot_keeps (high : build.pnetMaxSubslots ≤ slot) (within : slot < build.pnetMaxSlots)
    (requests : List Request) :
    let plugged := requests.filterMap (accepted slot)
    (run build requests).device.slots[slot]? = some (plugged.take build.pnetMaxSubslots ++
      List.replicate (build.pnetMaxSubslots - plugged.length) .zero) := by
  intro plugged
  rw [run_slot within]
  refine congrArg some ?_
  induction requests using List.reverseRecOn with
  | nil => simp [plugged, entered]
  | append_singleton requests request ih =>
    rw [entered_concat, ih, change_high high]
    have used : ∀ s ∈ (requests.filterMap (accepted slot)).take build.pnetMaxSubslots, s.used = true := by
      intro s member
      obtain ⟨request, -, found⟩ := List.mem_filterMap.mp (List.mem_of_mem_take member)
      exact accepted_used found
    simp only [plugged, List.filterMap_append]
    cases found : accepted slot request with
    | none => simp [found]
    | some entry =>
      simp only [found, List.filterMap_cons, List.filterMap_nil, List.length_append, List.length_singleton]
      rw [put_append used]
      rcases Nat.lt_or_ge (requests.filterMap (accepted slot)).length build.pnetMaxSubslots with room | full
      · obtain ⟨k, left⟩ : ∃ k, build.pnetMaxSubslots - (requests.filterMap (accepted slot)).length = k + 1 :=
          ⟨_, (Nat.succ_pred_eq_of_pos (Nat.sub_pos_of_lt room)).symm⟩
        rw [left, List.replicate_succ, List.take_of_length_le (Nat.le_of_lt room),
          List.take_of_length_le (by rw [List.length_append]; exact room)]
        have less : build.pnetMaxSubslots - ((requests.filterMap (accepted slot)).length + 1) = k := by omega
        rw [less]
        simp [put, Subslot.zero, List.findIdx?_cons]
      · have none : build.pnetMaxSubslots - (requests.filterMap (accepted slot)).length = 0 := by omega
        have none' : build.pnetMaxSubslots - ((requests.filterMap (accepted slot)).length + 1) = 0 := by omega
        rw [none, none', List.take_append_of_le_length full]
        simp [put]

/-- The fourth submodule of slot 3 is not in the table of a default build, and the first is still. -/
theorem high_slot_keeps_default :
    let build : Build := ⟨5, 3, true, fun _ _ => 0⟩
    let replug := fun submodule => Request.expSubmodule 3 1 submodule ⟨.io, 1, 1⟩ true true
    (run build [replug .digitalIn, replug .digitalOut, replug .echo, replug .digitalInOut]).device.slots[3]? =
      some [entryFor 3 1 .digitalIn ⟨.io, 1, 1⟩, entryFor 3 1 .digitalOut ⟨.io, 1, 1⟩,
        entryFor 3 1 .echo ⟨.io, 1, 1⟩] :=
  high_slot_keeps (by decide) (by decide) _

end High

section Low
variable {subslots : List Subslot} {held : Nat → Option Subslot} {entry : Subslot}

/-- The entries of a slot are those of a map from numbers. Unused entries are empty. -/
structure Tracks (subslots : List Subslot) (held : Nat → Option Subslot) : Prop where
  unused : ∀ s ∈ subslots, s.used = false → s = .zero
  named : ∀ s ∈ subslots, s.used = true → s.subslotNbr ≠ 0
  entries : ∀ n, n ≠ 0 → (subslots.filter fun s => s.used ∧ s.subslotNbr = n) = (held n).toList

/-- The entry of a number that is held. -/
theorem Tracks.split (tracks : Tracks subslots held) (named : n ≠ 0) (present : held n = some entry) :
    ∃ first rest, subslots = first ++ entry :: rest ∧ entry.used = true ∧ entry.subslotNbr = n ∧
      (∀ s ∈ first, s.subslotNbr ≠ n) ∧ ∀ s ∈ rest, ¬ (s.used = true ∧ s.subslotNbr = n) := by
  have only := tracks.entries n named
  rw [present, Option.toList_some, List.filter_eq_cons_iff] at only
  obtain ⟨first, rest, rfl, before, own, behind⟩ := only
  have own' : entry.used = true ∧ entry.subslotNbr = n := by simpa using own
  refine ⟨first, rest, rfl, own'.1, own'.2, fun s member same => ?_, fun s member => ?_⟩
  · -- an entry with the number is used, as unused ones are empty
    cases used : s.used with
    | true => exact before s member (by simp [used, same])
    | false =>
      have empty := tracks.unused s (List.mem_append_left _ member) used
      rw [empty] at same
      exact named same.symm
  · simpa using List.filter_eq_nil_iff.mp behind s member

theorem Tracks.remove (tracks : Tracks subslots held) (named : n ≠ 0) (present : held n = some entry) :
    Tracks (remove n subslots) (Function.update held n none) ∧
      ∃ s ∈ Profeth.remove n subslots, s.used = false := by
  obtain ⟨first, rest, rfl, used, number, before, behind⟩ := tracks.split named present
  have found : Profeth.remove n (first ++ entry :: rest) = first ++ .zero :: rest := by
    have skipped : first.findIdx? (fun s => s.subslotNbr = n) = none :=
      List.findIdx?_eq_none_iff.mpr fun s member => by simp [before s member]
    simp [Profeth.remove, List.findIdx?_append, skipped, List.findIdx?_cons, number]
  rw [found]
  have origin {s : Subslot} (member : s ∈ first ++ Subslot.zero :: rest) :
      s ∈ first ++ entry :: rest ∨ s = .zero := by
    simp only [List.mem_append, List.mem_cons] at member ⊢
    tauto
  refine ⟨⟨?_, ?_, ?_⟩, .zero, by simp, rfl⟩
  · intro s member off
    rcases origin member with old | rfl
    · exact tracks.unused s old off
    · rfl
  · intro s member on
    rcases origin member with old | rfl
    · exact tracks.named s old on
    · cases on
  · intro k positive
    have others := tracks.entries k positive
    by_cases same : k = n
    · subst same
      rw [Function.update_self, Option.toList_none, List.filter_eq_nil_iff]
      intro s member
      rcases List.mem_append.mp member with old | old
      · simp [before s old]
      · rcases List.mem_cons.mp old with rfl | old
        · simp [Subslot.zero]
        · simpa using behind s old
    · rw [Function.update_of_ne same, ← others]
      simp [Subslot.zero, number, Ne.symm same]

/-- Where there is an unused entry, one is taken. -/
theorem put_split (room : ∃ s ∈ subslots, s.used = false) (entry : Subslot) :
    ∃ first hole rest, subslots = first ++ hole :: rest ∧ hole.used = false ∧
      put entry subslots = first ++ entry :: rest := by
  obtain ⟨s, member, off⟩ := room
  have some : (subslots.find? fun s => !s.used).isSome := List.find?_isSome.mpr ⟨s, member, by simp [off]⟩
  obtain ⟨hole, found⟩ := Option.isSome_iff_exists.mp some
  obtain ⟨unused, first, rest, rfl, taken⟩ := List.find?_eq_some_iff_append.mp found
  have off : hole.used = false := by simpa using unused
  refine ⟨first, hole, rest, rfl, off, ?_⟩
  rw [put_append fun t member => by simpa using taken t member]
  simp [put, List.findIdx?_cons, off]

/-- One more entry has the number. -/
theorem put_count (room : ∃ s ∈ subslots, s.used = false) (used : entry.used = true) (number : entry.subslotNbr = n) :
    ((put entry subslots).filter fun s => s.used ∧ s.subslotNbr = n).length =
      (subslots.filter fun s => s.used ∧ s.subslotNbr = n).length + 1 := by
  obtain ⟨first, hole, rest, rfl, off, found⟩ := put_split room entry
  rw [found, List.filter_append, List.filter_append, List.filter_cons_of_pos (by simp [used, number]),
    List.filter_cons_of_neg (by simp [off])]
  simp only [List.length_append, List.length_cons]
  omega

theorem Tracks.put (tracks : Tracks subslots held) (named : n ≠ 0) (absent : held n = none)
    (used : entry.used = true) (number : entry.subslotNbr = n) (room : ∃ s ∈ subslots, s.used = false) :
    Tracks (put entry subslots) (Function.update held n (some entry)) := by
  obtain ⟨first, hole, rest, rfl, off, found⟩ := put_split room entry
  rw [found]
  have origin {s : Subslot} (member : s ∈ first ++ entry :: rest) :
      s ∈ first ++ hole :: rest ∨ s = entry := by
    simp only [List.mem_append, List.mem_cons] at member ⊢
    tauto
  refine ⟨?_, ?_, ?_⟩
  · intro s member off'
    rcases origin member with old | rfl
    · exact tracks.unused s old off'
    · rw [used] at off'
      cases off'
  · intro s member on
    rcases origin member with old | rfl
    · exact tracks.named s old on
    · exact number ▸ named
  · intro k positive
    have others := tracks.entries k positive
    rw [List.filter_append, List.filter_cons_of_neg (by simp [off])] at others
    by_cases same : k = n
    · subst same
      rw [absent, Option.toList_none, List.append_eq_nil_iff] at others
      rw [Function.update_self, Option.toList_some, List.filter_append, others.1,
        List.filter_cons_of_pos (by simp [used, number]), others.2, List.nil_append]
    · rw [Function.update_of_ne same, ← others, List.filter_append,
        List.filter_cons_of_neg (by simp [number, Ne.symm same])]

/-- The numbers of a slot that requests have named. -/
def number (slot : Nat) : Request → Option Nat
  | .expSubmodule s n _ _ _ _ => if s = slot then some n else none
  | _ => none

/-- What a request leaves in p-net for a number of a slot. A module is pulled with its submodules. -/
def outcome (slot n : Nat) : Request → Option (Option Subslot)
  | .expModule s _ pulled _ => if s = slot ∧ pulled then some none else none
  | .expSubmodule s m submodule expData _ plugged =>
    if s = slot ∧ m = n then some (if plugged then some (entryFor s m submodule expData) else none)
    else none
  | _ => none

/-- What p-net holds after some requests. -/
def holds (requests : List Request) (slot n : Nat) : Option Subslot :=
  (requests.filterMap (outcome slot n)).getLast?.join

/-- The numbers of a slot that p-net holds. -/
def occupied (requests : List Request) (slot : Nat) : List Nat :=
  ((requests.filterMap (number slot)).dedup).filter fun n => (holds requests slot n).isSome

/-- The slot in which p-net is to plug something. -/
def Request.target : Request → Option Nat
  | .expModule s _ _ _ => some s
  | .expSubmodule s _ _ _ _ _ => some s
  | _ => none

/-- What p-net answers for a slot: it pulls what it holds, and it accepts a new submodule if it
holds fewer than `PNET_MAX_SUBSLOTS` there. No module is pulled while it has submodules. -/
inductive Follows (pnetMaxSubslots slot : Nat) : List Request → Prop where
  | nil : Follows pnetMaxSubslots slot []
  | other {requests : List Request} {request : Request} :
      Follows pnetMaxSubslots slot requests → request.target ≠ some slot →
      Follows pnetMaxSubslots slot (requests ++ [request])
  | module {requests : List Request} {pulled : Bool} (moduleIdent : BitVec 32) (plugged : Bool) :
      Follows pnetMaxSubslots slot requests → (pulled = true → ∀ n, holds requests slot n = none) →
      Follows pnetMaxSubslots slot (requests ++ [.expModule slot moduleIdent pulled plugged])
  | submodule {requests : List Request} {n : Nat} {plugged : Bool} (submodule : Submodule)
      (expData : DataCfg) : Follows pnetMaxSubslots slot requests → n ≠ 0 →
      (plugged = true → (holds requests slot n).isSome ∨
        (occupied requests slot).length < pnetMaxSubslots) →
      Follows pnetMaxSubslots slot (requests ++
        [.expSubmodule slot n submodule expData (holds requests slot n).isSome plugged])

theorem holds_concat (requests : List Request) (request : Request) (slot n : Nat) :
    holds (requests ++ [request]) slot n = (outcome slot n request).getD (holds requests slot n) := by
  cases given : outcome slot n request with
  | none => simp [holds, given]
  | some left => simp [holds, given]

theorem number_of_holds (held : (holds requests slot n).isSome) : n ∈ requests.filterMap (number slot) := by
  obtain ⟨entry, found⟩ := Option.isSome_iff_exists.mp held
  rw [holds, Option.join_eq_some_iff] at found
  obtain ⟨request, member, left⟩ := List.mem_filterMap.mp (List.mem_of_getLast? found)
  refine List.mem_filterMap.mpr ⟨request, member, ?_⟩
  unfold outcome at left
  split at left
  · split at left
    · cases left
    · cases left
  · split at left
    case isTrue here =>
      obtain ⟨rfl, rfl⟩ := here
      simp [number]
    · cases left
  · cases left

/-- Without an unused entry, p-net holds as many submodules as there are entries. -/
theorem Tracks.room (tracks : Tracks subslots (holds requests slot))
    (less : (occupied requests slot).length < subslots.length) : ∃ s ∈ subslots, s.used = false := by
  by_contra full
  have used : ∀ s ∈ subslots, s.used = true := by simpa using full
  have counts (k : Nat) (positive : k ≠ 0) : (subslots.map Subslot.subslotNbr).count k =
      (holds requests slot k).toList.length := by
    rw [← tracks.entries k positive, List.count, List.countP_map, List.countP_eq_length_filter]
    refine congrArg List.length (List.filter_congr fun s member => ?_)
    by_cases same : s.subslotNbr = k <;> simp [used s member, same]
  have positive {k : Nat} (member : k ∈ subslots.map Subslot.subslotNbr) : k ≠ 0 := by
    obtain ⟨s, inside, rfl⟩ := List.mem_map.mp member
    exact tracks.named s inside (used s inside)
  have distinct : (subslots.map Subslot.subslotNbr).Nodup := by
    refine List.nodup_iff_count_le_one.mpr fun k => ?_
    by_cases member : k ∈ subslots.map Subslot.subslotNbr
    · rw [counts k (positive member)]
      cases holds requests slot k <;> simp
    · simp [List.count_eq_zero.mpr member]
  have within : subslots.map Subslot.subslotNbr ⊆ occupied requests slot := by
    intro k member
    have once : 0 < (holds requests slot k).toList.length :=
      counts k (positive member) ▸ List.count_pos_iff.mpr member
    have held : (holds requests slot k).isSome := by
      cases given : holds requests slot k with
      | none => simp [given] at once
      | some entry => rfl
    exact List.mem_filter.mpr ⟨List.mem_dedup.mpr (number_of_holds held), held⟩
  have bound := (distinct.subperm within).length_le
  rw [List.length_map] at bound
  omega

theorem change_of_other {request : Request} (other : request.target ≠ some slot) :
    change build slot subslots request = subslots := by
  cases request with
  | expModule s moduleIdent pulled plugged => rfl
  | expSubmodule s m submodule expData pulled plugged => exact if_neg fun here => other (congrArg some here)
  | write s m i data => rfl
  | read s m i length => rfl
  | release => rfl
  | abort => rfl
  | newDataStatus isRunning isValid => rfl
  | poll received buttonPressed => rfl

theorem outcome_of_other {request : Request} (other : request.target ≠ some slot) (n : Nat) :
    outcome slot n request = none := by
  cases request with
  | expModule s moduleIdent pulled plugged => exact if_neg fun here => other (congrArg some here.1)
  | expSubmodule s m submodule expData pulled plugged => exact if_neg fun here => other (congrArg some here.1)
  | write s m i data => rfl
  | read s m i length => rfl
  | release => rfl
  | abort => rfl
  | newDataStatus isRunning isValid => rfl
  | poll received buttonPressed => rfl

theorem change_length (subslots : List Subslot) (request : Request) :
    (change build slot subslots request).length = subslots.length := by
  have removes (k : Nat) (xs : List Subslot) : (Profeth.remove k xs).length = xs.length := by
    unfold Profeth.remove
    split <;> simp
  have puts (entry : Subslot) (xs : List Subslot) : (Profeth.put entry xs).length = xs.length := by
    unfold Profeth.put
    split <;> simp
  unfold change
  split
  · dsimp only
    split
    · split
      · rw [puts]
        split
        · exact removes _ _
        · rfl
      · split
        · exact removes _ _
        · rfl
    · rfl
  · rfl

theorem entryFor_number (slot subslot : Nat) (submodule : Submodule) (expData : DataCfg) :
    (entryFor slot subslot submodule expData).subslotNbr = subslot := by
  unfold entryFor
  split <;> rfl

/-- One request that p-net answers as it should. -/
theorem Tracks.change (low : slot < build.pnetMaxSubslots)
    (tracks : Tracks subslots (holds requests slot)) (named : n ≠ 0)
    (room : plugged = true → (holds requests slot n).isSome ∨ ∃ s ∈ subslots, s.used = false)
    (submodule : Submodule) (expData : DataCfg) :
    Tracks (change build slot subslots (.expSubmodule slot n submodule expData
        (holds requests slot n).isSome plugged))
      (holds (requests ++ [.expSubmodule slot n submodule expData (holds requests slot n).isSome plugged])
        slot) := by
  -- the old submodule is pulled, if there is one
  have pull : Tracks (if (holds requests slot n).isSome then Profeth.remove n subslots else subslots)
        (Function.update (holds requests slot) n none) ∧
      (plugged = true → ∃ s ∈ if (holds requests slot n).isSome then Profeth.remove n subslots else subslots,
        s.used = false) := by
    cases held : holds requests slot n with
    | some entry =>
      obtain ⟨removed, free⟩ := tracks.remove named held
      exact ⟨removed, fun _ => free⟩
    | none =>
      refine ⟨?_, fun on => ?_⟩
      · have same : Function.update (holds requests slot) n none = holds requests slot := by
          rw [← held, Function.update_eq_self]
        rw [same]
        exact tracks
      · simpa [held] using room on
  have after : holds (requests ++ [.expSubmodule slot n submodule expData (holds requests slot n).isSome
      plugged]) slot = Function.update (holds requests slot) n
        (if plugged then some (entryFor slot n submodule expData) else none) := by
    funext k
    rw [holds_concat]
    by_cases same : k = n
    · subst same
      simp [outcome]
    · simp [outcome, Ne.symm same, Function.update_of_ne same]
  rw [after]
  simp only [Profeth.change, if_true, low, and_true]
  cases plugged with
  | false => exact pull.1
  | true =>
    have plug := pull.1.put named (Function.update_self ..) (entryFor_used slot n submodule expData)
      (entryFor_number ..) (pull.2 rfl)
    simpa using plug

theorem entered_length (requests : List Request) : (entered build slot requests).length = build.pnetMaxSubslots := by
  induction requests using List.reverseRecOn with
  | nil => exact List.length_replicate
  | append_singleton requests request ih => rw [entered_concat, change_length, ih]

/-- Slots below `PNET_MAX_SUBSLOTS` follow p-net. -/
theorem Follows.tracks (low : slot < build.pnetMaxSubslots) (follows : Follows build.pnetMaxSubslots slot requests) :
    Tracks (entered build slot requests) (holds requests slot) := by
  induction follows with
  | nil =>
    refine ⟨fun s member _ => List.eq_of_mem_replicate member, fun s member on => ?_, fun n _ => ?_⟩
    · cases List.eq_of_mem_replicate member
      cases on
    · refine List.filter_eq_nil_iff.mpr fun s member => ?_
      cases List.eq_of_mem_replicate member
      simp [Subslot.zero]
  | @other before request _ other ih =>
    have same : holds (before ++ [request]) slot = holds before slot := by
      funext n
      rw [holds_concat, outcome_of_other other, Option.getD_none]
    rw [entered_concat, change_of_other other, same]
    exact ih
  | @module before pulled moduleIdent plugged _ empty ih =>
    have same : holds (before ++ [.expModule slot moduleIdent pulled plugged]) slot = holds before slot := by
      funext n
      rw [holds_concat]
      cases pulled with
      | false => simp [outcome]
      | true => simp [outcome, empty rfl n]
    rw [entered_concat, same]
    exact ih
  | submodule submodule expData _ named room ih =>
    rw [entered_concat]
    refine ih.change low named (fun on => (room on).imp_right fun less => ih.room ?_) submodule expData
    rwa [entered_length]

/-- The used entries of a slot that have a number. -/
def Device.entries (device : Device) (slot n : Nat) : List Subslot :=
  (device.slots[slot]?.getD []).filter fun s => s.used ∧ s.subslotNbr = n

theorem run_entries (within : slot < build.pnetMaxSlots) (requests : List Request) (n : Nat) :
    (run build requests).device.entries slot n =
      (entered build slot requests).filter fun s => s.used ∧ s.subslotNbr = n := by
  rw [Device.entries, run_slot within]
  rfl

end Low
end Profeth
