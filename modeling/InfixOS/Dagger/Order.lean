import InfixOS.Posix.Writes
import InfixOS.Dagger.Library

/-! The order files. The walk below the dag directory unfolds shared nodes any
number of times; what is kept of it is an order of the dependency graph itself. -/
namespace Dagger
open Posix Posix.FileTree

variable {σ : Type}

def isOrderFile (gen q : Path) : Prop := q = gen ++ ["bottom-up-order"] ∨ q = gen ++ ["top-down-order"]

/-- Only the two order files are written. -/
theorem generateOrder_writes (enum : Enumeration) (t : Base σ) (gen : Path)
    (bottom : t.Writable (gen ++ ["bottom-up-order"])) (top : t.Writable (gen ++ ["top-down-order"])) :
    Writes (fun q n => isOrderFile gen q ∧ ∃ data x, n = .file data x) t
      (generateOrder enum t gen).1 := by
  unfold generateOrder
  split
  · exact .refl
  · generalize Graph.unseen [] (findDepth enum t (gen ++ ["dag"])) = order
    have first := t.redirect_plain bottom (order.map .line)
    simp only
    generalize t.redirect (gen ++ ["bottom-up-order"]) (order.map .line) = r at *
    obtain ⟨u, ok⟩ := r
    have below : Writes (fun q n => isOrderFile gen q ∧ ∃ data x, n = .file data x) t u :=
      first.mono fun q n fine => ⟨.inl fine.1, fine.2⟩
    cases ok with
    | true =>
      have second := u.redirect_plain (first.writable top fun n fine => fine.2)
        (u.cat (gen ++ ["bottom-up-order"])).reverse
      exact below.trans (second.mono fun q n fine => ⟨.inr fine.1, fine.2⟩)
    | false => exact below

theorem generateOrder_frame (enum : Enumeration) (t : Base σ) (gen : Path)
    (bottom : t.Writable (gen ++ ["bottom-up-order"])) (top : t.Writable (gen ++ ["top-down-order"]))
    (other : ¬isOrderFile gen q) : (generateOrder enum t gen).1.get q = t.get q :=
  (generateOrder_writes enum t gen bottom top).frame fun _ fine => other fine.1

/-- Where one of the files is not there, both are written from the walk below
the dag directory. -/
theorem generateOrder_content (enum : Enumeration) (t : Base σ) (gen : Path)
    (bottom : t.Writable (gen ++ ["bottom-up-order"])) (top : t.Writable (gen ++ ["top-down-order"]))
    (stale : (t.isFile (gen ++ ["bottom-up-order"]) && t.isFile (gen ++ ["top-down-order"])) = false) :
    let order := Graph.unseen [] (findDepth enum t (gen ++ ["dag"]))
    (generateOrder enum t gen).2 = true ∧
    (∃ x, (generateOrder enum t gen).1.get (gen ++ ["bottom-up-order"]) =
      some (.file (order.map .line) x)) ∧
    ∃ x, (generateOrder enum t gen).1.get (gen ++ ["top-down-order"]) =
      some (.file (order.reverse.map .line) x) := by
  intro order
  have different : gen ++ ["bottom-up-order"] ≠ gen ++ ["top-down-order"] := by simp
  obtain ⟨x, wrote, content⟩ := t.redirect_writable bottom (order.map .line)
  have first := t.redirect_plain bottom (order.map .line)
  unfold generateOrder
  simp only [stale, Bool.false_eq_true, if_false]
  generalize t.redirect (gen ++ ["bottom-up-order"]) (order.map .line) = r at *
  obtain ⟨u, ok⟩ := r
  simp only at wrote content first
  subst wrote
  have below := first.writable top fun n fine => fine.2
  obtain ⟨y, wrote, reversed⟩ := u.redirect_writable below (order.map .line).reverse
  have second := u.redirect_plain below (order.map .line).reverse
  simp only [u.cat_file content]
  refine ⟨wrote, ⟨x, ?_⟩, ⟨y, ?_⟩⟩
  · rw [second.frame fun _ fine => different fine.1, content]
  · rw [reversed, List.map_reverse]

theorem generateOrder_ok (enum : Enumeration) (t : Base σ) (gen : Path)
    (bottom : t.Writable (gen ++ ["bottom-up-order"])) (top : t.Writable (gen ++ ["top-down-order"])) :
    (generateOrder enum t gen).2 = true := by
  cases stale : t.isFile (gen ++ ["bottom-up-order"]) && t.isFile (gen ++ ["top-down-order"]) with
  | true => simp [generateOrder, stale]
  | false => exact (generateOrder_content enum t gen bottom top stale).1

/-- The links of an acyclic dag directory, in whatever order its directories
are read, give a bottom-up order file with every node once and every dependee
before all that depend on it, also indirectly; the top-down file is the same
list from the other end. -/
theorem generateOrder_valid (enum : Enumeration) (t : Base σ) (gen : Path)
    (node : String → Prop) (dep : String → String → Prop)
    (graph : LinkGraph t (gen ++ ["dag"]) node dep)
    (acyclic : ∀ v, ¬Relation.TransGen (fun a b => node a ∧ dep a b) v v)
    (bottom : t.Writable (gen ++ ["bottom-up-order"])) (top : t.Writable (gen ++ ["top-down-order"]))
    (stale : (t.isFile (gen ++ ["bottom-up-order"]) && t.isFile (gen ++ ["top-down-order"])) = false) :
    (generateOrder enum t gen).2 = true ∧ ∃ (order : List String) (x y : Bool),
      (generateOrder enum t gen).1.get (gen ++ ["bottom-up-order"]) =
        some (.file (order.map .line) x) ∧
      (generateOrder enum t gen).1.get (gen ++ ["top-down-order"]) =
        some (.file (order.reverse.map .line) y) ∧
      order.Nodup ∧ (∀ v, v ∈ order ↔ node v) ∧
      (∀ v c, Relation.TransGen (fun a b => node a ∧ dep a b) v c → Graph.Before order c v) ∧
      order.reverse.Nodup ∧ (∀ v, v ∈ order.reverse ↔ node v) ∧
      ∀ v c, Relation.TransGen (fun a b => node a ∧ dep a b) v c →
        Graph.Before order.reverse v c := by
  obtain ⟨done, ⟨x, bottomUp⟩, y, topDown⟩ := generateOrder_content enum t gen bottom top stale
  obtain ⟨distinct, complete, ordered⟩ := graph.findDepth_order enum acyclic
  refine ⟨done, _, x, y, bottomUp, topDown, distinct, complete, ordered,
    List.nodup_reverse.mpr distinct, ?_, fun v c path => (ordered v c path).reverse⟩
  intro v
  rw [List.mem_reverse]
  exact complete v

def diamond : Base String :=
  let d : Handle := ⟨-1, 0, some ["next"], "/run/net"⟩
  let nodes := ["a", "b", "c", "d"].foldl (fun t v => (daggerAddNode d t v).1) .empty
  [("a", "b"), ("a", "c"), ("b", "d"), ("c", "d")].foldl (fun t e => (daggerAddDep d t e.1 e.2).1) nodes

private theorem diamond_graph : LinkGraph diamond ["0", "dag"] (· ∈ ["a", "b", "c", "d"])
    (fun v c => (v, c) ∈ [("a", "b"), ("a", "c"), ("b", "d"), ("c", "d")]) where
  root := by decide +kernel
  name := by rintro v member rfl; simp at member
  entry := by
    intro v present
    have listed := mem_names.mpr present
    rwa [show diamond.names ["0", "dag"] = ["d", "c", "b", "a"] by decide +kernel,
      ← List.mem_reverse] at listed
  dir := by decide +kernel
  link := by
    intro v c member present
    have all : ∀ v ∈ ["a", "b", "c", "d"], ∀ c ∈ diamond.names (["0", "dag"] ++ [v]),
        (v, c) ∈ [("a", "b"), ("a", "c"), ("b", "d"), ("c", "d")] := by decide +kernel
    exact all v member c (mem_names.mpr (by simpa using present))
  target := by
    intro v c _ depends
    have all : ∀ e ∈ [("a", "b"), ("a", "c"), ("b", "d"), ("c", "d")],
        diamond.get (["0", "dag"] ++ [e.1, e.2]) = some (.link ["..", e.2]) := by decide +kernel
    exact all (v, c) depends
  dependee := by
    intro v c _ depends
    have all : ∀ e ∈ [("a", "b"), ("a", "c"), ("b", "d"), ("c", "d")],
        e.2 ∈ ["a", "b", "c", "d"] := by decide
    exact all (v, c) depends

/-- The shared dependee of a diamond comes first in the bottom-up file. -/
theorem generateOrder_diamond : ∃ (order : List String) (x : Bool),
    (generateOrder .listed diamond ["0"]).1.get ["0", "bottom-up-order"] =
      some (.file (order.map .line) x) ∧ Graph.Before order "d" "a" := by
  have acyclic : ∀ v, ¬Relation.TransGen (fun a b => a ∈ ["a", "b", "c", "d"] ∧
      (a, b) ∈ [("a", "b"), ("a", "c"), ("b", "d"), ("c", "d")]) v v := by
    intro v cycle
    have up : ∀ e ∈ [("a", "b"), ("a", "c"), ("b", "d"), ("c", "d")], e.1 < e.2 := by decide
    have rising : Relation.TransGen (fun a b : String => a < b) v v :=
      cycle.lift id fun a b h => up (a, b) h.2
    rw [Relation.transGen_eq_self] at rising
    exact lt_irrefl v rising
  obtain ⟨_, order, x, _, file, _, _, _, ordered, _⟩ := generateOrder_valid .listed diamond ["0"] _ _
    diamond_graph acyclic (.inl (by decide +kernel)) (.inl (by decide +kernel)) (by decide +kernel)
  refine ⟨order, x, file, ordered "a" "d" ?_⟩
  exact .tail (.single ⟨by decide, by decide⟩ : Relation.TransGen _ "a" "b") ⟨by decide, by decide⟩

end Dagger
