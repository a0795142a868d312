import InfixOS.Slots.Compaction
import Mathlib.Data.BitVec

/-! The table of application relations of src/profeth/src/app_utils.c: an array of
`PNET_MAX_AR` entries, and the iterator that walks it up to the first unused one. The
iterator closes the gaps that deletions left when it comes to its end. -/
namespace Profeth
open Slots

/-- `UINT32_MAX`, the arep of an unused entry. -/
def uint32Max : BitVec 32 := BitVec.allOnes 32

structure Ar where
  arep : BitVec 32
  events : BitVec 32
  deriving DecidableEq, Repr

def Ar.unused (a : Ar) : Bool := a.arep == uint32Max

def Ar.release (a : Ar) : Ar := { a with arep := uint32Max }

/-- A pointer to an entry is its index. -/
def entryAt (ar : List Ar) (i : Nat) : Ar := ar.getD i ⟨uint32Max, 0⟩

/-- The table with the first unused entry taken, and that entry. -/
def appArAddArep (ar : List Ar) (arep : BitVec 32) : Option (List Ar × Nat) :=
  (ar.findIdx? Ar.unused).map fun i => (ar.set i ⟨arep, 0⟩, i)

def appArArep (ar : List Ar) (i : Nat) : BitVec 32 := (entryAt ar i).arep

def appArEventSet (ar : List Ar) (i : Nat) (event : BitVec 32) : List Ar :=
  ar.modify i fun a => { a with events := a.events ||| event }

def appArEventClr (ar : List Ar) (i : Nat) (event : BitVec 32) : List Ar × Bool :=
  if (entryAt ar i).events &&& event ≠ 0 then
    (ar.modify i fun a => { a with events := a.events &&& ~~~event }, true)
  else (ar, false)

/-- The index is an `int16_t`: `PNET_MAX_AR` is at most 32767. -/
structure Iterator where
  index : Int
  modified : Bool
  deriving DecidableEq, Repr

def appArIteratorInit : Iterator := ⟨-1, false⟩

def appArIteratorNext (ar : List Ar) (iterator : Iterator) : List Ar × Iterator × Option Nat :=
  let iterator := { iterator with index := iterator.index + 1 }
  if iterator.index < (ar.length : Int) ∧ (entryAt ar iterator.index.toNat).unused = false then
    (ar, iterator, some iterator.index.toNat)
  -- compiled only if `PNET_MAX_AR > 1`
  else if 1 < ar.length ∧ iterator.modified then (compact Ar.unused Ar.release ar, iterator, none)
  else (ar, iterator, none)

def appArIteratorDone (ar : List Ar) (iterator : Iterator) : Bool :=
  !(iterator.index < 0 ||
    (iterator.index < (ar.length : Int) && (entryAt ar iterator.index.toNat).unused == false))

def appArIteratorDeleteCurrent (ar : List Ar) (iterator : Iterator) : List Ar × Iterator :=
  if iterator.index < (ar.length : Int) then
    (ar.modify iterator.index.toNat Ar.release, { iterator with modified := true })
  else (ar, iterator)

/-- The loop of `app_event_set` that looks for an arep, for at most `n` rounds. -/
def appEventSetLoop (arep event : BitVec 32) : Nat → List Ar → Iterator → Option (List Ar × Iterator)
  | 0, _, _ => none
  | n + 1, ar, iterator =>
    match appArIteratorNext ar iterator with
    | (ar, iterator, none) => some (ar, iterator)
    | (ar, iterator, some i) =>
      if appArArep ar i = arep then some (appArEventSet ar i event, iterator)
      else appEventSetLoop arep event n ar iterator

/-- `app_event_set` up to the wakeup of the main task. -/
def setEvent (ar : List Ar) (arep event : BitVec 32) (addArep : Bool) : Option (List Ar) :=
  (appEventSetLoop arep event (ar.length + 1) ar appArIteratorInit).map fun (ar, iterator) =>
    if addArep ∧ appArIteratorDone ar iterator then
      match appArAddArep ar arep with
      | some (ar, i) => appArEventSet ar i event
      | none => ar
    else ar

/-- The iterator before the entry `i`. -/
def Iterator.before (i : Nat) (modified : Bool) : Iterator := ⟨i - 1, modified⟩

theorem release_unused (a : Ar) : a.release.unused = true := by
  simp [Ar.unused, Ar.release]

section Entries
variable {first rest : List Ar} {a : Ar}

@[simp] theorem entryAt_append : entryAt (first ++ a :: rest) first.length = a := by
  simp [entryAt]

@[simp] theorem modify_append (f : Ar → Ar) :
    (first ++ a :: rest).modify first.length f = first ++ f a :: rest := by
  induction first with
  | nil => rfl
  | cons b first ih => simpa using ih

theorem next_used (first rest : List Ar) (inUse : a.unused = false) (modified : Bool) :
    appArIteratorNext (first ++ a :: rest) (.before first.length modified) =
      (first ++ a :: rest, .before (first.length + 1) modified, some first.length) := by
  have index : (first.length : Int) - 1 + 1 = first.length := by omega
  simp [appArIteratorNext, Iterator.before, index, inUse]

/-- Behind the entries before it the iterator finds nothing in use. -/
theorem next_end (first : List Ar) (unused : ∀ b ∈ rest, b.unused = true) (modified : Bool) :
    appArIteratorNext (first ++ rest) (.before first.length modified) =
      (if 1 < (first ++ rest).length ∧ modified then compact Ar.unused Ar.release (first ++ rest)
        else first ++ rest, .before (first.length + 1) modified, none) := by
  have index : (first.length : Int) - 1 + 1 = first.length := by omega
  have stops : ¬ ((first.length : Int) < (first ++ rest).length ∧
      (entryAt (first ++ rest) first.length).unused = false) := by
    rintro ⟨within, inUse⟩
    cases rest with
    | nil => simp at within
    | cons b rest => simp [unused b List.mem_cons_self] at inUse
  simp only [appArIteratorNext, Iterator.before, index, Int.toNat_natCast, if_neg stops]
  have later : ((first.length + 1 : Nat) : Int) - 1 = first.length := by omega
  rw [later]
  split <;> rfl

end Entries

section Indicate
variable {arep event : BitVec 32} {first rest pad live ar : List Ar}

/-- The entry of an arep with an event set. -/
def Ar.mark (arep event : BitVec 32) (a : Ar) : Ar :=
  if a.arep = arep then { a with events := a.events ||| event } else a

/-- What an event does to the relations in use, when the table has `room` for another. -/
def indicate (live : List Ar) (arep event : BitVec 32) (addArep room : Bool) : List Ar :=
  if arep ∈ live.map Ar.arep then live.map (Ar.mark arep event)
  else if addArep ∧ room then live ++ [⟨arep, event⟩]
  else live

@[simp] theorem mark_arep (a : Ar) : (a.mark arep event).arep = a.arep := by
  unfold Ar.mark
  split <;> rfl

theorem map_mark_arep (live : List Ar) :
    (live.map (Ar.mark arep event)).map Ar.arep = live.map Ar.arep := by simp

theorem map_mark_of_not_mem (absent : arep ∉ live.map Ar.arep) : live.map (Ar.mark arep event) = live := by
  have same : ∀ a ∈ live, a.mark arep event = id a := by
    intro a member
    refine if_neg fun found : a.arep = arep => absent ?_
    exact found ▸ List.mem_map_of_mem member
  rw [List.map_congr_left same, List.map_id]

theorem done_before (modified : Bool) (a : Ar) (inUse : a.unused = false) :
    appArIteratorDone (first ++ a :: rest) (.before (first.length + 1) modified) = false := by
  have later : ((first.length + 1 : Nat) : Int) - 1 = first.length := by omega
  simp [appArIteratorDone, Iterator.before, inUse]

theorem done_end (modified : Bool) (unused : ∀ b ∈ pad, b.unused = true) :
    appArIteratorDone (first ++ pad) (.before (first.length + 1) modified) = true := by
  cases pad with
  | nil => simp [appArIteratorDone, Iterator.before]
  | cons b pad => simp [appArIteratorDone, Iterator.before, unused b List.mem_cons_self]

/-- The loop behind entries of other areps. It ends at the arep's entry, or behind the last one. -/
theorem appEventSetLoop_eq (arep event : BitVec 32) (unused : ∀ b ∈ pad, b.unused = true) (rest : List Ar) :
    ∀ (n : Nat) (first : List Ar), rest.length < n → (∀ b ∈ rest, b.unused = false) →
      (rest.map Ar.arep).Nodup →
      ∃ iterator, appEventSetLoop arep event n (first ++ (rest ++ pad)) (.before first.length false) =
          some (first ++ (rest.map (Ar.mark arep event) ++ pad), iterator) ∧
        (appArIteratorDone (first ++ (rest.map (Ar.mark arep event) ++ pad)) iterator = true ↔
          arep ∉ rest.map Ar.arep) := by
  induction rest with
  | nil =>
    intro n first enough _ _
    obtain ⟨n, rfl⟩ := Nat.exists_eq_succ_of_ne_zero (Nat.ne_of_gt enough)
    have ends := next_end first unused false
    simp only [Bool.false_eq_true, and_false, if_false] at ends
    refine ⟨.before (first.length + 1) false, by simp [appEventSetLoop, ends], ?_⟩
    simp [done_end false unused]
  | cons a rest ih =>
    intro n first enough inUse distinct
    obtain ⟨n, rfl⟩ := Nat.exists_eq_succ_of_ne_zero (Nat.ne_of_gt (Nat.zero_lt_of_lt enough))
    have here := inUse a List.mem_cons_self
    have step := next_used first (rest ++ pad) here false
    rw [List.map_cons, List.nodup_cons] at distinct
    simp only [List.cons_append, appEventSetLoop, step]
    by_cases found : a.arep = arep
    · subst found
      rw [if_pos (by simp [appArArep])]
      refine ⟨.before (first.length + 1) false, by simp [appArEventSet, Ar.mark, map_mark_of_not_mem distinct.1], ?_⟩
      simp only [List.map_cons, List.cons_append]
      rw [done_before false _ (by simpa [Ar.unused] using here)]
      simp
    · rw [if_neg (by simpa [appArArep] using found)]
      have later := ih n (first ++ [a]) (by simpa using enough)
        (fun b member => inUse b (List.mem_cons_of_mem _ member)) distinct.2
      simpa [Ar.mark, found, Ne.symm found] using later

theorem appArAddArep_eq (inUse : ∀ b ∈ live, b.unused = false) (unused : ∀ b ∈ pad, b.unused = true) :
    appArAddArep (live ++ pad) arep =
      match pad with
      | [] => none
      | _ :: pad => some (live ++ ⟨arep, 0⟩ :: pad, live.length) := by
  have skipped : live.findIdx? Ar.unused = none := List.findIdx?_eq_none_iff.mpr inUse
  cases pad with
  | nil => simp [appArAddArep, skipped]
  | cons b pad =>
    simp [appArAddArep, List.findIdx?_append, skipped, List.findIdx?_cons, unused b List.mem_cons_self]

/-- The table as a list of relations in use. -/
theorem setEvent_indicate (packed : Packed Ar.unused live ar) (distinct : (live.map Ar.arep).Nodup)
    (named : arep ≠ uint32Max) (event : BitVec 32) (addArep : Bool) :
    ∃ after, setEvent ar arep event addArep = some after ∧ after.length = ar.length ∧
      Packed Ar.unused (indicate live arep event addArep (live.length < ar.length)) after := by
  obtain ⟨pad, rfl, unused⟩ := packed.split
  obtain ⟨iterator, ran, done⟩ := appEventSetLoop_eq arep event unused live
    ((live ++ pad).length + 1) [] (by rw [List.length_append]; omega) packed.inUse distinct
  simp only [List.nil_append, List.length_nil] at ran done
  have start : Iterator.before 0 false = appArIteratorInit := rfl
  rw [start] at ran
  unfold setEvent indicate
  simp only [ran, Option.map_some]
  by_cases found : arep ∈ live.map Ar.arep
  · have stopped : ¬ appArIteratorDone (live.map (Ar.mark arep event) ++ pad) iterator = true := by
      rw [done]
      exact not_not.mpr found
    rw [if_pos found, if_neg fun both => stopped both.2]
    exact ⟨_, rfl, by simp, by simpa [Ar.unused] using packed.inUse, pad, rfl, unused⟩
  · rw [map_mark_of_not_mem found] at done ⊢
    rw [if_neg found, done.mpr found, appArAddArep_eq packed.inUse unused]
    cases pad with
    | nil => exact ⟨live ++ [], by split <;> rfl, by simp, by simpa using packed⟩
    | cons b pad =>
      cases addArep with
      | false => exact ⟨_, rfl, rfl, by simpa using packed⟩
      | true =>
        refine ⟨live ++ ⟨arep, event⟩ :: pad, by simp [appArEventSet], by simp, ?_⟩
        simp only [List.length_append, List.length_cons]
        rw [if_pos (by simp)]
        refine ⟨?_, pad, by simp, fun c member => unused c (List.mem_cons_of_mem _ member)⟩
        simpa [or_imp, forall_and, Ar.unused, named] using packed.inUse

end Indicate

end Profeth
