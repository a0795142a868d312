import Mathlib.Algebra.Order.BigOperators.Group.Finset
import Mathlib.Tactic.IntervalCases

/-! The sysrepo events a callback of a module receives, the results it returns, and the
commit hook, core_post_hook in src/confd/src/confd/core.c, that the subscriptions of all
modules share. Transactions on different modules may deliver their events in any
interleaving. The counter is an unbounded integer here. -/
namespace Core

inductive SrEvent where
  | update
  | change
  | done
  | abort
  | enabled
  | rpc
  deriving DecidableEq, Repr

/-- The results confd returns or tests for; `other` stands for any further
error of a library call. -/
inductive SrError where
  | ok
  | sys
  | validationFailed
  | internal
  | other (code : Nat)
  deriving DecidableEq, Repr

/-- `sr_change_oper_t`. -/
inductive SrOp where
  | created
  | modified
  | deleted
  | moved
  deriving DecidableEq, Repr

/-- The counter after a call, whether `initctl reload` was run, and the result. -/
structure HookResult where
  numChanges : Int
  reloaded : Bool
  rc : SrError
  deriving DecidableEq, Repr

/-- `core_post_hook`, given the exit statuses of the two commands it may run. -/
def corePostHook (runlevel initctl : Nat) (numChanges : Int) : SrEvent → HookResult
  | .change => ⟨numChanges + 1, false, .ok⟩
  | .abort => ⟨0, false, .ok⟩
  | .done =>
    if numChanges - 1 = 0 then
      if runlevel ≠ 0 then ⟨numChanges - 1, false, .ok⟩
      else ⟨numChanges - 1, true, if initctl ≠ 0 then .sys else .ok⟩
    else ⟨numChanges - 1, false, .ok⟩
  | .update | .enabled | .rpc => ⟨numChanges, false, .sys⟩

/-- One call of the hook, on behalf of the transaction `tx`. -/
structure Delivery where
  tx : Nat
  event : SrEvent
  runlevel : Nat
  initctl : Nat
  deriving DecidableEq, Repr

def hook (numChanges : Int) (d : Delivery) : HookResult :=
  corePostHook d.runlevel d.initctl numChanges d.event

def counter (run : List Delivery) : Int := run.foldl (fun n d => (hook n d).numChanges) 0

def ReloadsAt (run : List Delivery) (i : Nat) : Prop :=
  ∃ d, run[i]? = some d ∧ (hook (counter (run.take i)) d).reloaded = true

/-- The events of one transaction. -/
def delivered (run : List Delivery) (tx : Nat) : List SrEvent :=
  (run.filter fun d => d.tx = tx).map Delivery.event

def Committed (s : List SrEvent) : Prop :=
  ∃ k, 1 ≤ k ∧ s = .replicate k .change ++ .replicate k .done

def Aborted (s : List SrEvent) : Prop :=
  ∃ k j, 1 ≤ k ∧ 1 ≤ j ∧ s = .replicate k .change ++ .replicate j .abort

/-- A transaction that is not in flight. -/
def Complete (s : List SrEvent) : Prop := s = [] ∨ Committed s ∨ Aborted s

/-- At every moment a transaction has delivered the beginning of such a stream. -/
def Legal (run : List Delivery) : Prop := ∀ tx, ∃ whole, Complete whole ∧ delivered run tx <+: whole

/-- Every ABORT belongs to a transaction that has been alone since it began:
nothing was in flight then, and no other transaction has delivered since. -/
def Alone (run : List Delivery) : Prop :=
  ∀ before d, before ++ [d] <+: run → d.event = .abort → ∃ earlier own, before = earlier ++ own ∧
    (∀ e ∈ own, e.tx = d.tx) ∧ (∀ e ∈ earlier, e.tx ≠ d.tx) ∧ ∀ tx, Complete (delivered earlier tx)

/-- The hook skips the reload while `runlevel` has no answer. -/
def PastBootstrap (run : List Delivery) : Prop := ∀ d ∈ run, d.event = .done → d.runlevel = 0

theorem counter_snoc (run : List Delivery) (d : Delivery) :
    counter (run ++ [d]) = (hook (counter run) d).numChanges := by simp [counter]

theorem delivered_snoc (run : List Delivery) (d : Delivery) (tx : Nat) :
    delivered (run ++ [d]) tx = delivered run tx ++ if d.tx = tx then [d.event] else [] := by
  by_cases same : d.tx = tx
  · simp [delivered, same]
  · simp [delivered, same]

theorem delivered_append (first second : List Delivery) (tx : Nat) :
    delivered (first ++ second) tx = delivered first tx ++ delivered second tx := by
  simp [delivered]

theorem delivered_eq_nil (absent : ∀ d ∈ run, d.tx ≠ tx) : delivered run tx = [] := by
  simp only [delivered, List.map_eq_nil_iff, List.filter_eq_nil_iff, decide_eq_true_eq]
  exact absent

/-- What a transaction still has in the counter. -/
def outstanding (s : List SrEvent) : Int :=
  if .abort ∈ s then 0 else (s.count .change : Int) - s.count .done

/-- The beginning of a stream, spelled out. -/
theorem Complete.shape (complete : Complete whole) (start : s <+: whole) :
    ∃ a b, s = .replicate a .change ++ .replicate b .done ∧ b ≤ a ∨
      s = .replicate a .change ++ .replicate b .abort := by
  rw [List.prefix_iff_eq_take] at start
  rcases complete with rfl | ⟨k, _, rfl⟩ | ⟨k, j, _, _, rfl⟩
  · exact ⟨0, 0, .inl ⟨by simpa using start, by omega⟩⟩
  · rw [List.take_append, List.take_replicate, List.take_replicate] at start
    exact ⟨_, _, .inl ⟨start, by simp⟩⟩
  · rw [List.take_append, List.take_replicate, List.take_replicate] at start
    exact ⟨_, _, .inr start⟩

theorem outstanding_nonneg (legal : Legal run) (tx : Nat) : 0 ≤ outstanding (delivered run tx) := by
  obtain ⟨whole, complete, start⟩ := legal tx
  obtain ⟨a, b, ⟨same, bound⟩ | same⟩ := complete.shape start
  · simp [same, outstanding, List.count_append, List.count_replicate]
    omega
  · simp only [same, outstanding]
    split
    · rfl
    · simp [List.count_append, List.count_replicate]

theorem Complete.outstanding_eq (complete : Complete s) : outstanding s = 0 := by
  rcases complete with rfl | ⟨k, _, rfl⟩ | ⟨k, j, _, some, rfl⟩
  · simp [outstanding]
  · simp [outstanding, List.count_append, List.count_replicate]
  · have present : SrEvent.abort ∈ List.replicate k SrEvent.change ++ List.replicate j .abort := by
      simp; omega
    simp [outstanding, present]

theorem Legal.start (legal : Legal run) (reached : p <+: run) : Legal p := by
  intro tx
  obtain ⟨whole, complete, start⟩ := legal tx
  obtain ⟨rest, rfl⟩ := reached
  rw [delivered_append] at start
  exact ⟨whole, complete, (List.prefix_append _ _).trans start⟩

/-- After an ABORT a transaction delivers nothing else. -/
theorem Legal.no_abort (legal : Legal (run ++ [d])) (other : d.event ≠ .abort) :
    .abort ∉ delivered run d.tx := by
  obtain ⟨whole, complete, start⟩ := legal d.tx
  rw [delivered_snoc, if_pos rfl] at start
  obtain ⟨a, b, ⟨same, _⟩ | same⟩ := complete.shape start
  · have none : SrEvent.abort ∉ delivered run d.tx ++ [d.event] := by simp [same]
    exact fun member => none (List.mem_append_left _ member)
  · intro member
    cases b with
    | zero =>
      have none : SrEvent.abort ∉ delivered run d.tx ++ [d.event] := by simp [same]
      exact none (List.mem_append_left _ member)
    | succ b =>
      rw [List.replicate_succ', ← List.append_assoc] at same
      exact other (by simpa using (List.append_inj' same rfl).2)

/-- What one delivery does to the share of its transaction. -/
theorem outstanding_snoc (absent : .abort ∉ s) (e : SrEvent) :
    outstanding (s ++ [e]) = match e with
      | .change => outstanding s + 1
      | .done => outstanding s - 1
      | .abort => 0
      | .update | .enabled | .rpc => outstanding s := by
  cases e with
  | change => simp [outstanding, absent, List.count_append]; omega
  | done => simp [outstanding, absent, List.count_append]; omega
  | abort => simp [outstanding]
  | update | enabled | rpc => simp [outstanding, absent, List.count_append]

/-- What all transactions together have in the counter. -/
def total (run : List Delivery) : Int :=
  ∑ tx ∈ (run.map Delivery.tx).toFinset, outstanding (delivered run tx)

theorem total_eq (run : List Delivery) (txs : Finset Nat) (all : ∀ d ∈ run, d.tx ∈ txs) :
    total run = ∑ tx ∈ txs, outstanding (delivered run tx) := by
  refine Finset.sum_subset ?_ ?_
  · intro tx member
    obtain ⟨d, present, rfl⟩ := List.mem_map.mp (List.mem_toFinset.mp member)
    exact all d present
  · intro tx _ absent
    rw [delivered_eq_nil]
    · rfl
    · intro d present same
      exact absent (List.mem_toFinset.mpr (List.mem_map.mpr ⟨d, present, same⟩))

theorem total_snoc (run : List Delivery) (d : Delivery) :
    total (run ++ [d]) = total run - outstanding (delivered run d.tx) +
      outstanding (delivered run d.tx ++ [d.event]) := by
  have txs : ∀ e ∈ run ++ [d], e.tx ∈ ((run ++ [d]).map Delivery.tx).toFinset := by
    intro e member
    exact List.mem_toFinset.mpr (List.mem_map.mpr ⟨e, member, rfl⟩)
  have own : d.tx ∈ ((run ++ [d]).map Delivery.tx).toFinset := txs d (by simp)
  rw [total_eq run _ fun e member => txs e (List.mem_append_left _ member), total,
    ← Finset.add_sum_erase _ _ own, ← Finset.add_sum_erase _ _ own, delivered_snoc, if_pos rfl]
  have others : ∀ tx ∈ ((run ++ [d]).map Delivery.tx).toFinset.erase d.tx,
      outstanding (delivered (run ++ [d]) tx) = outstanding (delivered run tx) := by
    intro tx member
    rw [delivered_snoc, if_neg (Finset.ne_of_mem_erase member).symm, List.append_nil]
  rw [Finset.sum_congr rfl others]
  omega

theorem total_nonneg (legal : Legal run) : 0 ≤ total run :=
  Finset.sum_nonneg fun tx _ => outstanding_nonneg legal tx

theorem total_quiet (quiet : ∀ tx, Complete (delivered run tx)) : total run = 0 :=
  Finset.sum_eq_zero fun tx _ => (quiet tx).outstanding_eq

theorem Alone.start (alone : Alone run) (reached : p <+: run) : Alone p :=
  fun before d sofar abort => alone before d (sofar.trans reached) abort

/-- An ABORT that arrives alone clears what is its own and nothing else. -/
theorem total_abort (alone : Alone (run ++ [d])) (abort : d.event = .abort) :
    total (run ++ [d]) = 0 := by
  obtain ⟨earlier, own, rfl, mine, _, quiet⟩ := alone run d (List.prefix_refl _) abort
  refine Finset.sum_eq_zero fun tx _ => ?_
  by_cases same : d.tx = tx
  · rw [delivered_snoc, if_pos same, abort]
    simp [outstanding]
  · have none : delivered own tx = [] := delivered_eq_nil fun e member => (mine e member).symm ▸ same
    rw [delivered_snoc, if_neg same, delivered_append, none, List.append_nil, List.append_nil]
    exact (quiet tx).outstanding_eq

/-- The counter is what the transactions in flight still owe. -/
theorem counter_eq_total (run : List Delivery) (legal : Legal run) (alone : Alone run) :
    counter run = total run := by
  induction run using List.reverseRecOn with
  | nil => rfl
  | append_singleton run d ih =>
    have sofar := ih (legal.start (List.prefix_append _ _)) (alone.start (List.prefix_append _ _))
    by_cases abort : d.event = .abort
    · rw [counter_snoc, total_abort alone abort]
      simp [hook, corePostHook, abort]
    · rw [counter_snoc, total_snoc, outstanding_snoc (legal.no_abort abort), sofar]
      cases event : d.event with
      | change => simp only [hook, corePostHook, event]; omega
      | done =>
        simp only [hook, corePostHook, event]
        split
        · split
          · simp only; omega
          · simp only; omega
        · simp only; omega
      | abort => exact absurd event abort
      | update | enabled | rpc => simp only [hook, corePostHook, event]; omega

theorem counter_nonneg (legal : Legal run) (alone : Alone run) : 0 ≤ counter run := by
  rw [counter_eq_total run legal alone]
  exact total_nonneg legal

/-- A reload at or after the last event of the transaction. -/
def Served (run : List Delivery) (tx : Nat) : Prop :=
  ∃ i, ReloadsAt run i ∧ ∀ j d, run[j]? = some d → d.tx = tx → j ≤ i

theorem Served.append (served : Served run tx) (others : ∀ e ∈ rest, e.tx ≠ tx) :
    Served (run ++ rest) tx := by
  obtain ⟨i, ⟨d, at', reload⟩, last⟩ := served
  have inside : i < run.length := (List.getElem?_eq_some_iff.mp at').1
  refine ⟨i, ⟨d, ?_, ?_⟩, ?_⟩
  · rw [List.getElem?_append_left inside, at']
  · rw [List.take_append_of_le_length inside.le]
    exact reload
  · intro j e found same
    by_cases early : j < run.length
    · rw [List.getElem?_append_left early] at found
      exact last j e found same
    · rw [List.getElem?_append_right (by omega)] at found
      exact absurd same (others e (List.mem_of_getElem? found))

/-- The DONE that brings the counter to zero reloads for everyone. -/
theorem Served.of_done (done : d.event = .done) (up : d.runlevel = 0)
    (zero : counter (run ++ [d]) = 0) (tx : Nat) : Served (run ++ [d]) tx := by
  refine ⟨run.length, ⟨d, by simp, ?_⟩, ?_⟩
  · rw [List.take_left]
    have last : counter run - 1 = 0 := by
      rw [counter_snoc] at zero
      simp only [hook, corePostHook, done] at zero
      split at zero
      · assumption
      · simpa using zero
    simp [hook, corePostHook, done, up, last]
  · intro j e found _
    have inside := (List.getElem?_eq_some_iff.mp found).1
    simp only [List.length_append, List.length_singleton] at inside
    omega

theorem Committed.last (committed : Committed (s ++ [e])) : e = .done := by
  obtain ⟨k, some, same⟩ := committed
  obtain ⟨k, rfl⟩ : ∃ n, k = n + 1 := ⟨k - 1, by omega⟩
  rw [List.replicate_succ' (n := k) (a := SrEvent.done), ← List.append_assoc] at same
  simpa using (List.append_inj' same rfl).2

theorem Legal.known (legal : Legal (run ++ [d])) :
    d.event = .change ∨ d.event = .done ∨ d.event = .abort := by
  obtain ⟨whole, complete, start⟩ := legal d.tx
  have member : d.event ∈ whole := by
    apply start.subset
    simp [delivered_snoc]
  rcases complete with rfl | ⟨k, _, rfl⟩ | ⟨k, j, _, _, rfl⟩
  · simp at member
  · simp at member; grind
  · simp at member; grind

/-- A committed transaction has had its reload, or its reload is still owed by
the transactions that are in flight. -/
theorem served_or_owed (run : List Delivery) (legal : Legal run) (alone : Alone run)
    (up : PastBootstrap run) (committed : Committed (delivered run tx)) :
    Served run tx ∨ 0 < counter run := by
  -- Strong induction: at an ABORT the argument goes back to before its transaction began.
  induction size : run.length using Nat.strongRecOn generalizing run with
  | ind size' ih =>
  rcases List.eq_nil_or_concat run with rfl | ⟨before, d, rfl⟩
  · obtain ⟨k, some, same⟩ := committed
    simp [delivered] at same
    omega
  rw [List.concat_eq_append] at *
  have positive : counter (before ++ [d]) = 0 ∨ 0 < counter (before ++ [d]) := by
    have := counter_nonneg legal alone
    omega
  have known := legal.known
  cases event : d.event with
  | change =>
    refine .inr ?_
    have := counter_nonneg (legal.start (List.prefix_append before [d]))
      (alone.start (List.prefix_append before [d]))
    rw [counter_snoc]
    simp only [hook, corePostHook, event]
    omega
  | done =>
    rcases positive with zero | owed
    · exact .inl (Served.of_done event (up d (by simp) event) zero tx)
    · exact .inr owed
  | abort =>
    obtain ⟨earlier, own, rfl, mine, _, quiet⟩ := alone before d (List.prefix_refl _) event
    have other : d.tx ≠ tx := by
      intro same
      rw [delivered_snoc, if_pos same] at committed
      have last := committed.last
      simp [event] at last
    have others : ∀ e ∈ own ++ [d], e.tx ≠ tx := by
      intro e member
      rcases List.mem_append.mp member with inside | inside
      · exact (mine e inside).symm ▸ other
      · exact List.mem_singleton.mp inside ▸ other
    have begun : earlier <+: earlier ++ own ++ [d] := by simp
    rw [List.append_assoc, delivered_append, delivered_eq_nil others, List.append_nil] at committed
    rcases ih earlier.length (by simp at size; omega) earlier (legal.start begun)
        (alone.start begun) (fun e member => up e (begun.subset member)) committed rfl with served | owed
    · rw [List.append_assoc]
      exact .inl (served.append others)
    · rw [counter_eq_total earlier (legal.start begun) (alone.start begun), total_quiet quiet] at owed
      omega
  | update | enabled | rpc => simp [event] at known

/-- Only a DONE reloads. -/
theorem ReloadsAt.done (reloads : ReloadsAt run i) (found : run[i]? = some d) : d.event = .done := by
  obtain ⟨e, same, reload⟩ := reloads
  rw [found] at same
  obtain rfl := Option.some.inj same
  cases event : d.event with
  | done => rfl
  | _ => simp [hook, corePostHook, event] at reload

/-- What the hook owes to the transactions, at every moment none is in flight. -/
def ReloadsKept (run : List Delivery) : Prop :=
  ∀ p, p <+: run → (∀ tx, Complete (delivered p tx)) →
    counter p = 0 ∧ (∀ tx, Committed (delivered p tx) → Served p tx) ∧
      ∀ i d, p[i]? = some d → Aborted (delivered p d.tx) → ¬ReloadsAt p i

/-- No reload is lost in a run whose aborted transactions were alone. -/
theorem no_lost_reload (legal : Legal run) (alone : Alone run) (up : PastBootstrap run) :
    ReloadsKept run := by
  intro p reached quiet
  have zero : counter p = 0 := by
    rw [counter_eq_total p (legal.start reached) (alone.start reached), total_quiet quiet]
  refine ⟨zero, fun tx committed => ?_, fun i d found aborted reloads => ?_⟩
  · rcases served_or_owed p (legal.start reached) (alone.start reached)
        (fun d member => up d (reached.subset member)) committed with served | owed
    · exact served
    · omega
  · have done : SrEvent.done ∈ delivered p d.tx := by
      rw [← reloads.done found]
      exact List.mem_map_of_mem (List.mem_filter.mpr ⟨List.mem_of_getElem? found, by simp⟩)
    obtain ⟨k, j, _, _, same⟩ := aborted
    simp [same] at done

theorem quiet_of_members (all : ∀ tx ∈ run.map Delivery.tx, Complete (delivered run tx)) (tx : Nat) :
    Complete (delivered run tx) := by
  by_cases member : tx ∈ run.map Delivery.tx
  · exact all tx member
  · refine .inl (delivered_eq_nil fun d present same => member ?_)
    exact List.mem_map.mpr ⟨d, present, same⟩

theorem Legal.of_quiet (quiet : ∀ tx, Complete (delivered run tx)) : Legal run :=
  fun tx => ⟨_, quiet tx, List.prefix_refl _⟩

theorem Alone.snoc (alone : Alone run) (last : d.event = .abort →
    ∃ earlier own, run = earlier ++ own ∧ (∀ e ∈ own, e.tx = d.tx) ∧
      (∀ e ∈ earlier, e.tx ≠ d.tx) ∧ ∀ tx, Complete (delivered earlier tx)) :
    Alone (run ++ [d]) := by
  intro before e reached abort
  rcases List.prefix_concat_iff.mp reached with whole | inside
  · obtain ⟨rfl, same⟩ := List.append_inj' whole rfl
    obtain rfl : e = d := by simpa using same
    exact last abort
  · exact alone before e inside abort

/-- Two commits that overlap, then a transaction that is rejected. -/
def overlapping : List Delivery :=
  [⟨0, .change, 0, 0⟩, ⟨1, .change, 0, 0⟩, ⟨0, .done, 0, 0⟩, ⟨1, .done, 0, 0⟩]

def rejected : List Delivery := [⟨2, .change, 0, 0⟩, ⟨2, .abort, 0, 0⟩]

theorem overlapping_quiet : ∀ tx, Complete (delivered overlapping tx) := by
  refine quiet_of_members fun tx member => .inr (.inl ⟨1, le_rfl, ?_⟩)
  have known : tx = 0 ∨ tx = 1 := by simp [overlapping] at member; omega
  rcases known with rfl | rfl
  · rfl
  · rfl

theorem no_lost_reload_overlapping : ReloadsKept (overlapping ++ rejected) := by
  refine no_lost_reload (Legal.of_quiet (quiet_of_members fun tx member => ?_)) ?_ ?_
  · have known : tx = 0 ∨ tx = 1 ∨ tx = 2 := by simp [overlapping, rejected] at member; omega
    rcases known with rfl | rfl | rfl
    · exact .inr (.inl ⟨1, le_rfl, rfl⟩)
    · exact .inr (.inl ⟨1, le_rfl, rfl⟩)
    · exact .inr (.inr ⟨1, 1, le_rfl, le_rfl, rfl⟩)
  · intro before d reached abort
    have alone : Alone [] := fun before d reached => by simp at reached
    have first : Alone (overlapping ++ [⟨2, .change, 0, 0⟩]) :=
      ((((alone.snoc (by simp)).snoc (by simp)).snoc (by simp)).snoc (by simp)).snoc (by simp)
    refine (first.snoc fun _ => ⟨overlapping, [⟨2, .change, 0, 0⟩], rfl, ?_, ?_, overlapping_quiet⟩)
      before d reached abort
    · decide
    · decide
  · unfold PastBootstrap
    decide

/-- One commit during which another transaction is rejected. -/
def interrupted : List Delivery :=
  [⟨0, .change, 0, 0⟩, ⟨1, .change, 0, 0⟩, ⟨1, .abort, 0, 0⟩, ⟨0, .done, 0, 0⟩]

/-- The ABORT clears the counter of the other transaction: its DONE takes the
counter to -1, and nothing is ever reloaded. -/
theorem interrupted_loses_reload :
    Legal interrupted ∧ PastBootstrap interrupted ∧ (∀ tx, Complete (delivered interrupted tx)) ∧
      Committed (delivered interrupted 0) ∧ counter interrupted = -1 ∧
      (∀ i, ¬ReloadsAt interrupted i) ∧ ¬ReloadsKept interrupted := by
  have quiet : ∀ tx, Complete (delivered interrupted tx) := by
    refine quiet_of_members fun tx member => ?_
    have known : tx = 0 ∨ tx = 1 := by simp [interrupted] at member; omega
    rcases known with rfl | rfl
    · exact .inr (.inl ⟨1, le_rfl, rfl⟩)
    · exact .inr (.inr ⟨1, 1, le_rfl, le_rfl, rfl⟩)
  have negative : counter interrupted = -1 := by decide
  have silent : ∀ i d, interrupted[i]? = some d →
      (hook (counter (interrupted.take i)) d).reloaded = false := by
    intro i d found
    have inside : i < 4 := (List.getElem?_eq_some_iff.mp found).1
    interval_cases i
    all_goals
      obtain rfl := Option.some.inj found
      decide
  refine ⟨Legal.of_quiet quiet, by unfold PastBootstrap; decide, quiet, ⟨1, le_rfl, rfl⟩, negative,
    ?_, fun kept => ?_⟩
  · rintro i ⟨d, found, reload⟩
    simp [silent i d found] at reload
  · have zero := (kept interrupted (List.prefix_refl _) quiet).1
    omega

end Core
