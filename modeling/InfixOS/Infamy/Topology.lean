import Mathlib.Data.List.AList
import Mathlib.Data.List.Dedup
import Mathlib.Data.Set.Function

/-! test/infamy/topology.py: the graph of a topology, and the mapping of a logical one to
a physical one that networkx has found. Devices and ports are vertices of one graph.
Where the vertices of one label hang each on a single vertex of another label, an
embedding onto a node-induced subgraph keeps them where they hang. -/
namespace Graph

structure Labelled (V κ : Type) where
  vertices : Set V
  label : V → κ
  adj : V → V → Prop

variable {V W κ : Type} {G : Labelled V κ} {H : Labelled W κ} {f : V → W} {leaf : κ}

/-- An isomorphism onto the subgraph that its image induces. -/
structure Embeds (G : Labelled V κ) (H : Labelled W κ) (f : V → W) : Prop where
  inside : ∀ v ∈ G.vertices, f v ∈ H.vertices
  injective : Set.InjOn f G.vertices
  label : ∀ v ∈ G.vertices, H.label (f v) = G.label v
  adj : ∀ u ∈ G.vertices, ∀ v ∈ G.vertices, H.adj (f u) (f v) ↔ G.adj u v

/-- The leaves hang on their owners, and on no other vertex that is not a leaf. -/
structure Hangs (G : Labelled V κ) (leaf : κ) (owner : V → V) : Prop where
  inside : ∀ v ∈ G.vertices, G.label v = leaf → owner v ∈ G.vertices
  bearer : ∀ v ∈ G.vertices, G.label v = leaf → G.label (owner v) ≠ leaf
  adj : ∀ v ∈ G.vertices, G.label v = leaf → G.adj (owner v) v
  only : ∀ u ∈ G.vertices, ∀ v ∈ G.vertices, G.label u ≠ leaf → G.label v = leaf → G.adj u v → u = owner v

theorem Embeds.owner {below : V → V} {above : W → W} (embeds : Embeds G H f) (hangs : Hangs G leaf below)
    (hangs' : Hangs H leaf above) (member : v ∈ G.vertices) (isLeaf : G.label v = leaf) :
    f (below v) = above (f v) := by
  have bearer := hangs.inside v member isLeaf
  have other : H.label (f (below v)) ≠ leaf := by
    rw [embeds.label _ bearer]
    exact hangs.bearer v member isLeaf
  have image : H.label (f v) = leaf := (embeds.label v member).trans isLeaf
  have edge : H.adj (f (below v)) (f v) := (embeds.adj _ bearer v member).mpr (hangs.adj v member isLeaf)
  exact hangs'.only _ (embeds.inside _ bearer) _ (embeds.inside v member) other image edge

end Graph

namespace Infamy

/-- A device and one of its ports. -/
abbrev Endpoint := String × String

/-- A device is a string, a port a pair. -/
inductive Vertex where
  | device (name : String)
  | port (endpoint : Endpoint)
  deriving DecidableEq, Repr

/-- A graph in the language of dot: its edges, and the attribute kind of the first
statement about a node. -/
structure Dot where
  edges : List (Endpoint × Endpoint)
  kind : String → Option String

def qstrip (text : String) : String :=
  if text.toList.head? = some '"' ∧ text.toList.getLast? = some '"' then String.ofList (text.toList.drop 1).dropLast
  else text

/-- networkx.Graph, with the attribute kind. -/
structure NxGraph where
  nodes : List Vertex
  kind : Vertex → Option String
  edges : List (Vertex × Vertex)

namespace NxGraph

def setKind (g : NxGraph) (v : Vertex) (kind : String) : NxGraph := { g with kind := Function.update g.kind v (some kind) }

def addNode (g : NxGraph) (v : Vertex) (kind : String) : NxGraph :=
  { g.setKind v kind with nodes := if v ∈ g.nodes then g.nodes else g.nodes ++ [v] }

/-- Both vertices are there already. -/
def addEdge (g : NxGraph) (u v : Vertex) : NxGraph := { g with edges := g.edges ++ [(u, v)] }

def Adj (g : NxGraph) (u v : Vertex) : Prop := (u, v) ∈ g.edges ∨ (v, u) ∈ g.edges

instance (g : NxGraph) (u v : Vertex) : Decidable (g.Adj u v) := inferInstanceAs (Decidable (_ ∨ _))

end NxGraph

section Init

/-- One more entry of a dictionary. -/
def put (d : List (Endpoint × Endpoint)) (e : Endpoint × Endpoint) : List (Endpoint × Endpoint) :=
  if d.any (·.1 = e.1) then d.map fun old => if old.1 = e.1 then e else old else d ++ [e]

/-- The dictionary of the edges by their sources. -/
def byKey (edges : List (Endpoint × Endpoint)) : List (Endpoint × Endpoint) := edges.foldl put []

def ports (edges : List (Endpoint × Endpoint)) : List Endpoint := edges.flatMap fun e => [e.1, e.2]

/-- The devices that have a port with an edge. -/
def devices (edges : List (Endpoint × Endpoint)) : List String := (ports edges).map Prod.fst

def NxGraph.ofEdges (edges : List (Endpoint × Endpoint)) : NxGraph where
  nodes := ((ports edges).map .port).dedup
  kind := fun _ => none
  edges := edges.map fun e => (.port e.1, .port e.2)

def kindOf (dot : Dot) (name : String) : Except String String :=
  match dot.kind name with
  | some kind => .ok (qstrip kind)
  | none => .error ("\"" ++ name ++ "\"'s kind is not known")

/-- The body of the loop over the edges. -/
def attach (dot : Dot) (g : NxGraph) (e : Endpoint × Endpoint) : Except String NxGraph := do
  let g := (g.setKind (.port e.1) "port").setKind (.port e.2) "port"
  let sk ← kindOf dot e.1.1
  let dk ← kindOf dot e.2.1
  let g := (g.addNode (.device e.1.1) sk).addEdge (.device e.1.1) (.port e.1)
  pure ((g.addNode (.device e.2.1) dk).addEdge (.device e.2.1) (.port e.2))

/-- `Topology(dotg)`. -/
def topology (dot : Dot) : Except String NxGraph :=
  (byKey dot.edges).foldlM (attach dot) (NxGraph.ofEdges (byKey dot.edges))

end Init

section MapTo

inductive Failure where
  | assertion
  | unpack
  | key
  deriving DecidableEq, Repr

/-- What is known of a logical node: where it is, under the key None, and its ports. -/
structure NodeMap where
  node : Vertex
  ports : AList fun _ : String => String

abbrev Mapping := AList fun _ : String => NodeMap

def mapNode (m : Mapping) (lnode : String) (pnode : Vertex) : Except Failure Mapping :=
  match m.lookup lnode with
  | some known => if known.node = pnode then .ok m else .error .assertion
  | none => .ok (m.insert lnode ⟨pnode, ∅⟩)

def mapPort (m : Mapping) (log phy : Endpoint) : Except Failure Mapping :=
  match m.lookup log.1 with
  | none => .error .key
  | some known =>
    match known.ports.lookup log.2 with
    | some pport => if pport = phy.2 then .ok m else .error .assertion
    | none => .ok (m.insert log.1 { known with ports := known.ports.insert log.2 phy.2 })

/-- `pnode, pport = phy`: a string of two characters can be taken apart as well. -/
def unpack : Vertex → Except Failure Endpoint
  | .port phy => .ok phy
  | .device name =>
    match name.toList with
    | [first, second] => .ok (String.singleton first, String.singleton second)
    | _ => .error .unpack

/-- One pair of the mapping that was found, physical before logical. -/
def mapItem (m : Mapping) (item : Vertex × Vertex) : Except Failure Mapping :=
  match item.2 with
  | .port log => do
    let phy ← unpack item.1
    let m ← mapNode m log.1 (.device phy.1)
    mapPort m log phy
  | .device log => mapNode m log item.1

def matchKind (phy log : Option String) : Bool := phy = log

/-- What GraphMatcher(phy, log).subgraph_is_isomorphic() leaves in its mapping, if it
returns True. -/
abbrev Matcher := NxGraph → NxGraph → Option (List (Vertex × Vertex))

/-- `log.map_to(phy)`: none for False, and for True the mapping it has made. -/
def mapTo (matcher : Matcher) (log phy : NxGraph) : Except Failure (Option Mapping) :=
  match matcher phy log with
  | none => .ok none
  | some items => (items.foldlM mapItem ∅).map some

inductive Image where
  | node (pnode : Vertex)
  | port (pnode : Vertex) (pport : String)
  deriving DecidableEq, Repr

def xlate (m : Mapping) (lnode : String) (lport : Option String) : Except Failure (Option Image) :=
  if m.entries = [] then .error .assertion
  else
    match m.lookup lnode with
    | none => .ok none
    | some nodemap =>
      match lport with
      | none => .ok (some (.node nodemap.node))
      | some port =>
        match nodemap.ports.lookup port with
        | none => .ok none
        | some pport => if port = "" then .ok (some (.node nodemap.node)) else .ok (some (.port nodemap.node pport))

end MapTo

/-- Edges connect named ports of devices, each port is used by one edge at most, and no
device is of the kind of ports. -/
structure PortGraph (dot : Dot) : Prop where
  once : dot.edges.Pairwise fun e f => ∀ p ∈ [e.1, e.2], p ∉ [f.1, f.2]
  named : ∀ p ∈ ports dot.edges, p.2 ≠ ""
  kinds : ∀ p ∈ ports dot.edges, (dot.kind p.1).map qstrip ≠ some "port"

/-- What is assumed of networkx: a bijection between the vertices of the logical graph and
some of the physical one that keeps kinds, and has edges on both sides or on none. -/
structure Isomorphic (phy log : NxGraph) (items : List (Vertex × Vertex)) : Prop where
  keys : (items.map Prod.fst).Nodup
  values : (items.map Prod.snd).Nodup
  covers : ∀ v, v ∈ items.map Prod.snd ↔ v ∈ log.nodes
  inside : ∀ item ∈ items, item.1 ∈ phy.nodes
  kinds : ∀ item ∈ items, matchKind (phy.kind item.1) (log.kind item.2) = true
  adj : ∀ i ∈ items, ∀ j ∈ items, phy.Adj i.1 j.1 ↔ log.Adj i.2 j.2

section Graph
variable {dot : Dot} {all done rest : List (Endpoint × Endpoint)} {g : NxGraph}

theorem byKey_eq (once : dot.edges.Pairwise fun e f => ∀ p ∈ [e.1, e.2], p ∉ [f.1, f.2]) : byKey dot.edges = dot.edges := by
  have grow : ∀ (rest d : List (Endpoint × Endpoint)), (d ++ rest).Pairwise (fun e f => e.1 ≠ f.1) →
      rest.foldl put d = d ++ rest := by
    intro rest
    induction rest with
    | nil => simp
    | cons e rest ih =>
      intro d distinct
      have new : ¬d.any (·.1 = e.1) = true := by
        intro found
        obtain ⟨old, member, same⟩ := List.any_eq_true.mp found
        exact (List.pairwise_append.mp distinct).2.2 old member e List.mem_cons_self (of_decide_eq_true same)
      rw [List.foldl_cons, put, if_neg new, ih]
      · simp
      · simpa using distinct
  apply grow
  refine once.imp ?_
  intro e f apart same
  exact apart e.1 List.mem_cons_self (same ▸ List.mem_cons_self)

/-- The graph when some of its edges have been through the loop. -/
structure Built (dot : Dot) (all done : List (Endpoint × Endpoint)) (g : NxGraph) : Prop where
  portNode : ∀ p, .port p ∈ g.nodes ↔ p ∈ ports all
  deviceNode : ∀ n, .device n ∈ g.nodes ↔ n ∈ devices done
  portKind : ∀ p ∈ ports done, g.kind (.port p) = some "port"
  deviceKind : ∀ n ∈ devices done, g.kind (.device n) = (dot.kind n).map qstrip
  edges : g.edges = (all.map fun e => (.port e.1, .port e.2)) ++ (ports done).map fun p => (.device p.1, .port p)

theorem Built.start (dot : Dot) (all : List (Endpoint × Endpoint)) : Built dot all [] (NxGraph.ofEdges all) where
  portNode := by simp [NxGraph.ofEdges]
  deviceNode := by simp [NxGraph.ofEdges, devices, ports]
  portKind := by simp [ports]
  deviceKind := by simp [devices, ports]
  edges := by simp [NxGraph.ofEdges, ports]

theorem kindOf_ok (known : kindOf dot n = .ok kind) : (dot.kind n).map qstrip = some kind := by
  rw [kindOf] at known
  split at known
  · rename_i raw found
    rw [found, Option.map_some, Except.ok.inj known]
  · cases known

theorem mem_ports_concat : p ∈ ports (done ++ [e]) ↔ p ∈ ports done ∨ p = e.1 ∨ p = e.2 := by
  simp [ports]

theorem mem_devices_concat : n ∈ devices (done ++ [e]) ↔ n ∈ devices done ∨ n = e.1.1 ∨ n = e.2.1 := by
  simp [devices, ports]

theorem attach_ok (ran : attach dot g e = .ok g') : ∃ sk dk, (dot.kind e.1.1).map qstrip = some sk ∧
    (dot.kind e.2.1).map qstrip = some dk ∧
    g' = ((((((g.setKind (.port e.1) "port").setKind (.port e.2) "port").addNode (.device e.1.1) sk).addEdge
      (.device e.1.1) (.port e.1)).addNode (.device e.2.1) dk).addEdge (.device e.2.1) (.port e.2)) := by
  rw [attach] at ran
  cases first : kindOf dot e.1.1 with
  | error message =>
    rw [first] at ran
    cases ran
  | ok sk =>
    cases second : kindOf dot e.2.1 with
    | error message =>
      rw [first, second] at ran
      cases ran
    | ok dk =>
      rw [first, second] at ran
      exact ⟨sk, dk, kindOf_ok first, kindOf_ok second, (Except.ok.inj ran).symm⟩

theorem mem_addNode (g : NxGraph) (v : Vertex) (kind : String) : u ∈ (g.addNode v kind).nodes ↔ u ∈ g.nodes ∨ u = v := by
  rw [NxGraph.addNode]
  split
  · rename_i there
    exact ⟨.inl, fun known => known.elim id fun same => same ▸ there⟩
  · simp

theorem Built.attach (built : Built dot all done g) (ran : attach dot g e = .ok g') : Built dot all (done ++ [e]) g' := by
  obtain ⟨sk, dk, source, destination, rfl⟩ := attach_ok ran
  constructor
  · intro p
    rw [← built.portNode]
    simp [NxGraph.addEdge, mem_addNode, NxGraph.setKind]
  · intro n
    rw [mem_devices_concat, ← built.deviceNode]
    simp [NxGraph.addEdge, mem_addNode, NxGraph.setKind, or_assoc]
  · intro p member
    have old := built.portKind p
    rw [mem_ports_concat] at member
    simp only [NxGraph.addEdge, NxGraph.addNode, NxGraph.setKind, Function.update_apply, reduceCtorEq, if_false,
      Vertex.port.injEq]
    by_cases last : p = e.2
    · rw [if_pos last]
    · by_cases first : p = e.1
      · rw [if_neg last, if_pos first]
      · rw [if_neg last, if_neg first]
        exact old (member.resolve_right fun new => new.elim first last)
  · intro n member
    have old := built.deviceKind n
    rw [mem_devices_concat] at member
    simp only [NxGraph.addEdge, NxGraph.addNode, NxGraph.setKind, Function.update_apply, reduceCtorEq, if_false,
      Vertex.device.injEq]
    by_cases last : n = e.2.1
    · rw [if_pos last, last, destination]
    · by_cases first : n = e.1.1
      · rw [if_neg last, if_pos first, first, source]
      · rw [if_neg last, if_neg first]
        exact old (member.resolve_right fun new => new.elim first last)
  · simp [NxGraph.addEdge, NxGraph.addNode, NxGraph.setKind, built.edges, ports]

theorem Built.foldlM (built : Built dot all done g) (ran : rest.foldlM (Infamy.attach dot) g = .ok g') :
    Built dot all (done ++ rest) g' := by
  induction rest generalizing done g with
  | nil =>
    rw [List.append_nil]
    rw [List.foldlM_nil] at ran
    exact Except.ok.inj ran ▸ built
  | cons e rest ih =>
    rw [List.foldlM_cons] at ran
    cases first : Infamy.attach dot g e with
    | error message =>
      rw [first] at ran
      cases ran
    | ok h =>
      rw [first] at ran
      have next := ih (built.attach first) ran
      rwa [List.append_assoc, List.singleton_append] at next

/-- The graph that the constructor makes. -/
theorem topology_built (well : PortGraph dot) (made : topology dot = .ok g) : Built dot dot.edges dot.edges g := by
  rw [topology, byKey_eq well.once] at made
  exact (Built.start dot dot.edges).foldlM made

def Linked (dot : Dot) (p q : Endpoint) : Prop := (p, q) ∈ dot.edges ∨ (q, p) ∈ dot.edges

section Whole
variable (well : PortGraph dot) (built : Built dot dot.edges dot.edges g)
include well built

theorem node_kind_iff (member : v ∈ g.nodes) : g.kind v = some "port" ↔ ∃ p, v = .port p := by
  cases v with
  | port p => simp [built.portKind p ((built.portNode p).mp member)]
  | device n =>
    have listed := (built.deviceNode n).mp member
    obtain ⟨p, used, rfl⟩ := List.mem_map.mp listed
    simp [built.deviceKind _ listed, well.kinds p used]

omit well in
theorem adj_ports (p q : Endpoint) : g.Adj (.port p) (.port q) ↔ Linked dot p q := by
  simp [NxGraph.Adj, Linked, built.edges]

omit well in
theorem adj_device (n : String) (p : Endpoint) : g.Adj (.device n) (.port p) ↔ p ∈ ports dot.edges ∧ n = p.1 := by
  have edge : (Vertex.device n, Vertex.port p) ∈ g.edges ↔ p ∈ ports dot.edges ∧ n = p.1 := by
    rw [built.edges, List.mem_append]
    simp only [List.mem_map, Prod.mk.injEq, reduceCtorEq, false_and, and_false, exists_false, false_or,
      Vertex.device.injEq, Vertex.port.injEq]
    constructor
    · rintro ⟨q, member, rfl, rfl⟩
      exact ⟨member, rfl⟩
    · rintro ⟨member, rfl⟩
      exact ⟨p, member, rfl, rfl⟩
  have back : (Vertex.port p, Vertex.device n) ∉ g.edges := by
    rw [built.edges, List.mem_append]
    simp
  rw [NxGraph.Adj, edge]
  exact ⟨fun either => either.elim id fun wrong => absurd wrong back, .inl⟩

end Whole

end Graph

section Embedding

/-- The device that a vertex belongs to. -/
def owner : Vertex → Vertex
  | .port p => .device p.1
  | .device n => .device n

def NxGraph.labelled (g : NxGraph) : Graph.Labelled Vertex (Option String) := ⟨{v | v ∈ g.nodes}, g.kind, g.Adj⟩

/-- A port hangs on its device, and on no other. -/
theorem ports_hang (well : PortGraph dot) (built : Built dot dot.edges dot.edges g) :
    Graph.Hangs g.labelled (some "port") owner := by
  have port (v : Vertex) (member : v ∈ g.nodes) (kind : g.kind v = some "port") : ∃ p ∈ ports dot.edges, v = .port p := by
    obtain ⟨p, rfl⟩ := (node_kind_iff well built member).mp kind
    exact ⟨p, (built.portNode p).mp member, rfl⟩
  have device (p : Endpoint) (used : p ∈ ports dot.edges) : .device p.1 ∈ g.nodes :=
    (built.deviceNode p.1).mpr (List.mem_map_of_mem used)
  constructor
  · intro v member kind
    obtain ⟨p, used, rfl⟩ := port v member kind
    exact device p used
  · intro v member kind other
    obtain ⟨p, used, rfl⟩ := port v member kind
    obtain ⟨q, wrong⟩ := (node_kind_iff well built (device p used)).mp other
    cases wrong
  · intro v member kind
    obtain ⟨p, used, rfl⟩ := port v member kind
    exact (adj_device built p.1 p).mpr ⟨used, rfl⟩
  · intro u bearer v member other kind edge
    obtain ⟨p, used, rfl⟩ := port v member kind
    cases u with
    | port q => exact absurd ((node_kind_iff well built bearer).mpr ⟨q, rfl⟩) other
    | device n => rw [((adj_device built n p).mp edge).2, owner]

/-- Where a logical vertex goes. -/
def image (items : List (Vertex × Vertex)) (v : Vertex) : Vertex :=
  ((items.find? fun item => item.2 = v).map Prod.fst).getD v

variable {phy log : NxGraph} {items : List (Vertex × Vertex)}

theorem image_eq (values : (items.map Prod.snd).Nodup) (member : item ∈ items) : image items item.2 = item.1 := by
  induction items with
  | nil => cases member
  | cons first rest ih =>
    rw [List.map_cons, List.nodup_cons] at values
    rw [image, List.find?_cons]
    rcases List.mem_cons.mp member with rfl | later
    · simp
    · have other : first.2 ≠ item.2 := fun same => values.1 (same ▸ List.mem_map_of_mem later)
      rw [decide_eq_false other]
      exact ih values.2 later

theorem Isomorphic.embeds (iso : Isomorphic phy log items) : Graph.Embeds log.labelled phy.labelled (image items) := by
  have item (v : Vertex) (member : v ∈ log.nodes) : (image items v, v) ∈ items := by
    obtain ⟨pair, listed, rfl⟩ := List.mem_map.mp ((iso.covers v).mpr member)
    rwa [image_eq iso.values listed]
  constructor
  · exact fun v member => iso.inside _ (item v member)
  · intro u first v second same
    have once := List.inj_on_of_nodup_map iso.keys (item u first) (item v second) same
    exact congrArg Prod.snd once
  · exact fun v member => of_decide_eq_true (iso.kinds _ (item v member))
  · exact fun u first v second => iso.adj _ (item u first) _ (item v second)

end Embedding

section Mapping

/-- Devices go to devices, and ports to ports of those. -/
def place (f : String → String) (h : Endpoint → String) : Vertex → Vertex
  | .device n => .device (f n)
  | .port p => .port (f p.1, h p)

/-- The kinds tell devices from ports, and the edge between a port and its device says
which device the image of the port belongs to. -/
theorem Isomorphic.placed {logical physical : Dot} {log phy : NxGraph} {items : List (Vertex × Vertex)}
    (iso : Isomorphic phy log items) (wellLog : PortGraph logical) (builtLog : Built logical logical.edges logical.edges log)
    (wellPhy : PortGraph physical) (builtPhy : Built physical physical.edges physical.edges phy) :
    ∃ f h, ∀ v ∈ log.nodes, image items v = place f h v := by
  have embeds := iso.embeds
  have same (v : Vertex) (member : v ∈ log.nodes) : (∃ p, image items v = .port p) ↔ ∃ p, v = .port p := by
    rw [← node_kind_iff wellPhy builtPhy (embeds.inside v member), ← node_kind_iff wellLog builtLog member]
    exact iff_of_eq (congrArg (· = some "port") (embeds.label v member))
  refine ⟨fun n => match image items (.device n) with
    | .device n' => n'
    | .port _ => "", fun p => match image items (.port p) with
    | .port q => q.2
    | .device _ => "", fun v member => ?_⟩
  cases v with
  | device n =>
    rw [place]
    cases found : image items (.device n) with
    | device n' => rfl
    | port q =>
      obtain ⟨p, wrong⟩ := (same _ member).mp ⟨q, found⟩
      cases wrong
  | port p =>
    obtain ⟨q, found⟩ := (same _ member).mpr ⟨p, rfl⟩
    have kind : log.kind (.port p) = some "port" := (node_kind_iff wellLog builtLog member).mpr ⟨p, rfl⟩
    have above : image items (.device p.1) = owner (image items (.port p)) :=
      embeds.owner (ports_hang wellLog builtLog) (ports_hang wellPhy builtPhy) member kind
    rw [found, owner] at above
    rw [place, above, found]

variable {f : String → String} {h : Endpoint → String} {m : Mapping}

/-- Everything that has been entered is right. -/
structure Consistent (f : String → String) (h : Endpoint → String) (m : Mapping) : Prop where
  node : ∀ n known, m.lookup n = some known → known.node = .device (f n)
  port : ∀ n known, m.lookup n = some known → ∀ p pport, known.ports.lookup p = some pport → pport = h (n, p)

theorem Consistent.empty (f : String → String) (h : Endpoint → String) : Consistent f h ∅ where
  node := by
    intro n known found
    cases found
  port := by
    intro n known found
    cases found

/-- A vertex has been entered. -/
def Knows (m : Mapping) : Vertex → Prop
  | .device n => ∃ known, m.lookup n = some known
  | .port p => ∃ known pport, m.lookup p.1 = some known ∧ known.ports.lookup p.2 = some pport

/-- The next mapping: right, with one more vertex, and without losing any. -/
structure Enters (f : String → String) (h : Endpoint → String) (m : Mapping) (v : Vertex) (m' : Mapping) : Prop where
  consistent : Consistent f h m'
  knows : Knows m' v
  keeps : ∀ u, Knows m u → Knows m' u

/-- A new entry for a node that is right and has all that was there. -/
theorem insert_keeps (consistent : Consistent f h m) (n : String) (entry : NodeMap) (node : entry.node = .device (f n))
    (ports : ∀ p pport, entry.ports.lookup p = some pport → pport = h (n, p))
    (more : ∀ known, m.lookup n = some known → ∀ p pport, known.ports.lookup p = some pport →
      ∃ pport', entry.ports.lookup p = some pport') :
    Consistent f h (m.insert n entry) ∧ ∀ u, Knows m u → Knows (m.insert n entry) u := by
  have looked (n' : String) : (m.insert n entry).lookup n' = if n' = n then some entry else m.lookup n' := by
    split
    · rename_i own
      rw [own, AList.lookup_insert]
    · rename_i other
      exact AList.lookup_insert_ne other
  refine ⟨⟨?_, ?_⟩, ?_⟩
  · intro n' known there
    rw [looked] at there
    split at there
    · rename_i own
      rw [own, ← Option.some.inj there, node]
    · exact consistent.node n' known there
  · intro n' known there
    rw [looked] at there
    split at there
    · rename_i own
      rw [own, ← Option.some.inj there]
      exact ports
    · exact consistent.port n' known there
  · intro u knows
    cases u with
    | device n' =>
      obtain ⟨known, there⟩ := knows
      by_cases own : n' = n
      · exact ⟨entry, by rw [looked, if_pos own]⟩
      · exact ⟨known, by rw [looked, if_neg own, there]⟩
    | port q =>
      obtain ⟨known, pport, there, entered⟩ := knows
      by_cases own : q.1 = n
      · obtain ⟨pport', still⟩ := more known (own ▸ there) q.2 pport entered
        exact ⟨entry, pport', by rw [looked, if_pos own], still⟩
      · exact ⟨known, pport, by rw [looked, if_neg own, there], entered⟩

theorem mapNode_enters (consistent : Consistent f h m) (n : String) :
    ∃ m', mapNode m n (.device (f n)) = .ok m' ∧ Enters f h m (.device n) m' := by
  rw [mapNode]
  cases found : m.lookup n with
  | some known => exact ⟨m, if_pos (consistent.node n known found), consistent, ⟨known, found⟩, fun _ knows => knows⟩
  | none =>
    have nothing : ∀ p pport, (∅ : AList fun _ : String => String).lookup p = some pport → pport = h (n, p) := by
      intro p pport entered
      cases entered
    obtain ⟨consistent', keeps⟩ := insert_keeps consistent n ⟨.device (f n), ∅⟩ rfl nothing (by simp [found])
    exact ⟨_, rfl, consistent', ⟨_, AList.lookup_insert m⟩, keeps⟩

theorem mapPort_enters (consistent : Consistent f h m) (p : Endpoint) (known : Knows m (.device p.1)) :
    ∃ m', mapPort m p (f p.1, h p) = .ok m' ∧ Enters f h m (.port p) m' := by
  obtain ⟨nodemap, found⟩ := known
  cases entered : nodemap.ports.lookup p.2 with
  | some pport =>
    have right : pport = h p := consistent.port p.1 nodemap found p.2 pport entered
    refine ⟨m, ?_, consistent, ⟨nodemap, pport, found, entered⟩, fun _ knows => knows⟩
    simp only [mapPort, found, entered, if_pos right]
  | none =>
    have looked (q : String) : (nodemap.ports.insert p.2 (h p)).lookup q =
        if q = p.2 then some (h p) else nodemap.ports.lookup q := by
      split
      · rename_i own
        rw [own, AList.lookup_insert]
      · rename_i other
        exact AList.lookup_insert_ne other
    have right : ∀ q pport, (nodemap.ports.insert p.2 (h p)).lookup q = some pport → pport = h (p.1, q) := by
      intro q pport there
      rw [looked] at there
      split at there
      · rename_i own
        rw [own]
        exact (Option.some.inj there).symm
      · exact consistent.port p.1 nodemap found q pport there
    have more : ∀ known, m.lookup p.1 = some known → ∀ q pport, known.ports.lookup q = some pport →
        ∃ pport', (nodemap.ports.insert p.2 (h p)).lookup q = some pport' := by
      intro known same q pport there
      obtain rfl := Option.some.inj (found.symm.trans same)
      by_cases own : q = p.2
      · exact ⟨h p, by rw [looked, if_pos own]⟩
      · exact ⟨pport, by rw [looked, if_neg own, there]⟩
    obtain ⟨consistent', keeps⟩ := insert_keeps consistent p.1 { nodemap with ports := nodemap.ports.insert p.2 (h p) }
      (consistent.node p.1 nodemap found) right more
    refine ⟨_, ?_, consistent', ⟨_, h p, AList.lookup_insert m, AList.lookup_insert _⟩, keeps⟩
    simp only [mapPort, found, entered]

theorem mapItem_enters (consistent : Consistent f h m) (v : Vertex) :
    ∃ m', mapItem m (place f h v, v) = .ok m' ∧ Enters f h m v m' := by
  cases v with
  | device n => exact mapNode_enters consistent n
  | port p =>
    obtain ⟨m₁, first, entersNode⟩ := mapNode_enters consistent p.1
    obtain ⟨m₂, second, entersPort⟩ := mapPort_enters entersNode.consistent p entersNode.knows
    refine ⟨m₂, ?_, entersPort.consistent, entersPort.knows, fun u knows => entersPort.keeps u (entersNode.keeps u knows)⟩
    change (do let m ← mapNode m p.1 (.device (f p.1)); mapPort m p (f p.1, h p)) = _
    rw [first]
    exact second

/-- In whatever order the pairs come. -/
theorem foldlM_enters (consistent : Consistent f h m) {items : List (Vertex × Vertex)}
    (placed : ∀ item ∈ items, item.1 = place f h item.2) :
    ∃ m', items.foldlM mapItem m = .ok m' ∧ Consistent f h m' ∧ (∀ item ∈ items, Knows m' item.2) ∧
      ∀ u, Knows m u → Knows m' u := by
  induction items generalizing m with
  | nil => exact ⟨m, rfl, consistent, by simp, fun _ knows => knows⟩
  | cons item rest ih =>
    rw [List.forall_mem_cons] at placed
    obtain ⟨m₁, first, enters⟩ := mapItem_enters consistent item.2
    obtain ⟨m₂, later, consistent', knows, keeps⟩ := ih enters.consistent placed.2
    have pair : (place f h item.2, item.2) = item := Prod.ext placed.1.symm rfl
    rw [pair] at first
    refine ⟨m₂, by rw [List.foldlM_cons, first]; exact later, consistent', ?_, fun u old => keeps u (enters.keeps u old)⟩
    rw [List.forall_mem_cons]
    exact ⟨keeps _ enters.knows, knows⟩

theorem entries_ne_nil (found : m.lookup n = some known) : m.entries ≠ [] := by
  intro empty
  rw [AList.lookup, empty] at found
  cases found

theorem xlate_node (consistent : Consistent f h m) (knows : Knows m (.device n)) :
    xlate m n none = .ok (some (.node (.device (f n)))) := by
  obtain ⟨known, found⟩ := knows
  rw [xlate, if_neg (entries_ne_nil found), found]
  simp only [consistent.node n known found]

theorem xlate_port (consistent : Consistent f h m) (knows : Knows m (.port p)) (named : p.2 ≠ "") :
    xlate m p.1 (some p.2) = .ok (some (.port (.device (f p.1)) (h p))) := by
  obtain ⟨known, pport, found, entered⟩ := knows
  rw [xlate, if_neg (entries_ne_nil found), found]
  simp only [entered, if_neg named, consistent.node p.1 known found, consistent.port p.1 known found p.2 pport entered]

end Mapping

section Faithful

/-- A mapping under which the logical topology is a part of the physical one. -/
structure Faithful (logical physical : Dot) (m : Mapping) (f : String → String) (h : Endpoint → String) : Prop where
  node : ∀ n ∈ devices logical.edges, xlate m n none = .ok (some (.node (.device (f n)))) ∧ f n ∈ devices physical.edges ∧
    (physical.kind (f n)).map qstrip = (logical.kind n).map qstrip
  node_injective : ∀ n ∈ devices logical.edges, ∀ n' ∈ devices logical.edges, f n = f n' → n = n'
  port : ∀ p ∈ ports logical.edges,
    xlate m p.1 (some p.2) = .ok (some (.port (.device (f p.1)) (h p))) ∧ (f p.1, h p) ∈ ports physical.edges
  port_injective : ∀ p ∈ ports logical.edges, ∀ q ∈ ports logical.edges, p.1 = q.1 → h p = h q → p = q
  linked : ∀ p ∈ ports logical.edges, ∀ q ∈ ports logical.edges,
    (Linked logical p q ↔ Linked physical (f p.1, h p) (f q.1, h q))

/-- No assertion fails, and a topology that is mapped is a faithful part of the other. -/
theorem map_to_faithful (matcher : Matcher) {logical physical : Dot} {log phy : NxGraph} (wellLog : PortGraph logical)
    (wellPhy : PortGraph physical) (madeLog : topology logical = .ok log) (madePhy : topology physical = .ok phy)
    (assumed : ∀ items, matcher phy log = some items → Isomorphic phy log items) :
    mapTo matcher log phy = .ok none ∨
      ∃ m f h, mapTo matcher log phy = .ok (some m) ∧ Faithful logical physical m f h := by
  have builtLog := topology_built wellLog madeLog
  have builtPhy := topology_built wellPhy madePhy
  cases found : matcher phy log with
  | none => exact .inl (by rw [mapTo, found])
  | some items =>
    have iso := assumed items found
    have embeds := iso.embeds
    obtain ⟨f, h, placed⟩ := iso.placed wellLog builtLog wellPhy builtPhy
    have logNode (item : Vertex × Vertex) (member : item ∈ items) : item.2 ∈ log.nodes :=
      (iso.covers item.2).mp (List.mem_map_of_mem member)
    have pairs : ∀ item ∈ items, item.1 = place f h item.2 := by
      intro item member
      rw [← image_eq iso.values member]
      exact placed item.2 (logNode item member)
    obtain ⟨m, ran, consistent, knows, -⟩ := foldlM_enters (Consistent.empty f h) pairs
    have known (v : Vertex) (member : v ∈ log.nodes) : Knows m v := by
      obtain ⟨item, listed, rfl⟩ := List.mem_map.mp ((iso.covers v).mpr member)
      exact knows item listed
    have mapped : mapTo matcher log phy = .ok (some m) := by
      simp only [mapTo, found, ran]
      rfl
    refine .inr ⟨m, f, h, mapped, ?_⟩
    have device (n : String) (listed : n ∈ devices logical.edges) : .device n ∈ log.nodes := (builtLog.deviceNode n).mpr listed
    have port (p : Endpoint) (listed : p ∈ ports logical.edges) : .port p ∈ log.nodes := (builtLog.portNode p).mpr listed
    constructor
    · intro n listed
      have inside := embeds.inside _ (device n listed)
      have label := embeds.label _ (device n listed)
      rw [placed _ (device n listed)] at inside label
      have image := (builtPhy.deviceNode _).mp inside
      refine ⟨xlate_node consistent (known _ (device n listed)), image, ?_⟩
      rw [← builtPhy.deviceKind _ image, ← builtLog.deviceKind _ listed]
      exact label
    · intro n first n' second same
      have images : image items (.device n) = image items (.device n') := by
        rw [placed _ (device n first), placed _ (device n' second), place, place, same]
      exact Vertex.device.inj (embeds.injective (device n first) (device n' second) images)
    · intro p listed
      have inside := embeds.inside _ (port p listed)
      rw [placed _ (port p listed)] at inside
      exact ⟨xlate_port consistent (known _ (port p listed)) (wellLog.named p listed), (builtPhy.portNode _).mp inside⟩
    · intro p first q second node same
      have images : image items (.port p) = image items (.port q) := by
        rw [placed _ (port p first), placed _ (port q second), place, place, node, same]
      exact Vertex.port.inj (embeds.injective (port p first) (port q second) images)
    · intro p first q second
      rw [← adj_ports builtLog, ← adj_ports builtPhy]
      have edges := embeds.adj _ (port p first) _ (port q second)
      rw [placed _ (port p first), placed _ (port q second)] at edges
      exact edges.symm

/-- A host and a target with one link, as a test asks for them. -/
def pair : Dot where
  edges := [(("host", "tgt"), ("target", "mgmt"))]
  kind := fun name => if name = "host" then some "controller" else if name = "target" then some "infix" else none

/-- A test system with two targets. -/
def bench : Dot where
  edges := [(("server", "d1"), ("dut1", "e0")), (("server", "d2"), ("dut2", "e0")), (("dut1", "e1"), ("dut2", "e1"))]
  kind := fun name => if name = "server" then some "\"controller\"" else if name = "dut1" ∨ name = "dut2" then some "infix" else none

def benchItems : List (Vertex × Vertex) :=
  [(.port ("server", "d2"), .port ("host", "tgt")), (.device "dut2", .device "target"), (.device "server", .device "host"),
    (.port ("dut2", "e0"), .port ("target", "mgmt"))]

theorem map_to_faithful_bench : ∃ log phy, topology pair = .ok log ∧ topology bench = .ok phy ∧
    ∃ m f h, mapTo (fun _ _ => some benchItems) log phy = .ok (some m) ∧ Faithful pair bench m f h := by
  have wellPair : PortGraph pair := ⟨by decide, by decide, by decide⟩
  have wellBench : PortGraph bench := ⟨by decide, by decide, by decide⟩
  refine ⟨_, _, rfl, rfl, ?_⟩
  have mapped := map_to_faithful (fun _ _ => some benchItems) wellPair wellBench rfl rfl (by
    intro items found
    obtain rfl := Option.some.inj found
    refine ⟨by decide, by decide, fun v => ⟨fun listed => ?_, fun node => ?_⟩, by decide, by decide, by decide⟩
    · revert v
      decide
    · revert v
      decide)
  rcases mapped with unmapped | mapped
  · have mapping (r : Except Failure Mapping) : r.map some ≠ .ok none := by
      intro same
      cases r with
      | error failure => cases same
      | ok m => cases same
    exact absurd unmapped (mapping (benchItems.foldlM mapItem ∅))
  · exact mapped

end Faithful

end Infamy
