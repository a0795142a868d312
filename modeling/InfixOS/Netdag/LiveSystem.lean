import InfixOS.Netdag.Generate
import InfixOS.Netdag.Rules

/-! Preparing a transaction and the live system. Everything the generator does
for an interface goes to scripts, except for the addresses of a family that the
new configuration does not have enabled: these are flushed at once. -/
namespace Netdag
open Core Dagger Exec Exec.Program Lyx Posix Yang

/-- The number of addresses of a list of links. -/
def addressCount (links : List Link) : Nat :=
  (links.map fun l => l.inet.length + l.inet6.length).sum

/-- A link of this name has an address of this family. -/
def Stale (k : Kernel) (family : Family) (ifname : String) : Prop :=
  ∃ l ∈ k.links, l.name = ifname ∧ l.addresses family ≠ []

/-- The same system, or one with fewer addresses: what is lost does not come
back. -/
def Shrinks (k k' : Kernel) : Prop := k' = k ∨ addressCount k'.links < addressCount k.links

theorem Shrinks.trans (first : Shrinks a b) (second : Shrinks b c) : Shrinks a c := by
  rcases second with rfl | fewer
  · exact first
  · rcases first with rfl | less
    · exact .inr fewer
    · exact .inr (fewer.trans less)

theorem Shrinks.back (first : Shrinks a b) (second : Shrinks b a) : b = a := by
  rcases first with same | fewer
  · exact same
  · rcases second with same | less
    · exact same.symm
    · omega

theorem Link.flush_count (l : Link) (family : Family) (addressed : l.addresses family ≠ []) :
    (l.flush family).inet.length + (l.flush family).inet6.length < l.inet.length + l.inet6.length := by
  have positive := List.length_pos_of_ne_nil addressed
  cases family with
  | ipv4 =>
    simp only [Link.addresses] at positive
    simp only [Link.flush, List.length_nil]
    omega
  | ipv6 =>
    simp only [Link.addresses] at positive
    simp only [Link.flush, List.length_nil]
    omega

theorem Link.flush_same (l : Link) (family : Family) (none : l.addresses family = []) :
    l.flush family = l := by
  cases family with
  | ipv4 =>
    simp only [Link.addresses] at none
    simp only [Link.flush, ← none]
  | ipv6 =>
    simp only [Link.addresses] at none
    simp only [Link.flush, ← none]

theorem flush_clean (links : List Link) (none : ∀ l ∈ links, l.name = ifname → l.addresses family = []) :
    (links.map fun l => if l.name = ifname then l.flush family else l) = links := by
  refine (List.map_congr_left fun l member => ?_).trans (List.map_id links)
  by_cases named : l.name = ifname
  · rw [if_pos named, l.flush_same family (none l member named), id]
  · rw [if_neg named, id]

/-- A flush finds no addresses, or some are lost. -/
theorem flush_links (links : List Link) (family : Family) (ifname : String) :
    (∀ l ∈ links, l.name = ifname → l.addresses family = []) ∨
      addressCount (links.map fun l => if l.name = ifname then l.flush family else l) <
        addressCount links := by
  induction links with
  | nil => simp
  | cons l rest ih =>
    by_cases addressed : l.name = ifname ∧ l.addresses family ≠ []
    · refine .inr ?_
      have lost := l.flush_count family addressed.2
      simp only [addressCount, List.map_cons, List.sum_cons, if_pos addressed.1] at ih ⊢
      rcases ih with none | fewer
      · rw [flush_clean rest none]
        omega
      · omega
    · have none : l.name = ifname → l.addresses family = [] := by tauto
      rcases ih with rest | fewer
      · exact .inl (List.forall_mem_cons.mpr ⟨none, rest⟩)
      · refine .inr ?_
        have head := flush_clean [l] (List.forall_mem_singleton.mpr none)
        simp only [List.map_cons, List.map_nil, List.cons.injEq, and_true] at head
        simp only [addressCount, List.map_cons, List.sum_cons, head] at fewer ⊢
        omega

theorem addrFlush_same (k : Kernel) (clean : ¬Stale k family ifname) :
    k.addrFlush family ifname = k := by
  have none : ∀ l ∈ k.links, l.name = ifname → l.addresses family = [] := by
    intro l member named
    by_contra addressed
    exact clean ⟨l, member, named, addressed⟩
  simp only [Kernel.addrFlush, flush_clean k.links none]

theorem addrFlush_fewer (k : Kernel) (stale : Stale k family ifname) :
    addressCount (k.addrFlush family ifname).links < addressCount k.links := by
  obtain ⟨l, member, named, addressed⟩ := stale
  rcases flush_links k.links family ifname with none | fewer
  · exact absurd (none l member named) addressed
  · exact fewer

theorem addrFlush_shrinks (k : Kernel) (family : Family) (ifname : String) :
    Shrinks k (k.addrFlush family ifname) := by
  by_cases stale : Stale k family ifname
  · exact .inr (addrFlush_fewer _ stale)
  · exact .inl (addrFlush_same _ stale)

/-- A flush on the way from a system back to itself has lost nothing. -/
theorem addrFlush_harmless (sofar : Shrinks k k') (later : Shrinks (k'.addrFlush family ifname) k) :
    ¬Stale k family ifname := by
  intro stale
  obtain rfl : k' = k := sofar.back ((addrFlush_shrinks k' family ifname).trans later)
  have fewer := addrFlush_fewer k' stale
  rcases later with same | less
  · rw [← same] at fewer
    omega
  · omega

/-- Without an index there is nothing to flush. -/
theorem flushLive_eq (family : Family) (ifname : String) (s : GenState) :
    flushLive family ifname s = (.ok (), { s with kernel := s.kernel.addrFlush family ifname }) := by
  by_cases missing : s.kernel.hasLink ifname = true
  · simp [flushLive, update, missing]
  · simp only [flushLive, update, missing, Bool.false_eq_true, if_false]
    rw [addrFlush_same]
    rintro ⟨l, member, named, _⟩
    simp only [Kernel.hasLink, Kernel.find, List.find?_isSome, decide_eq_true_eq] at missing
    exact missing ⟨l, member, named⟩

def SameKernel (s t : GenState) : Prop := t.kernel = s.kernel

def Wears (s t : GenState) : Prop := Shrinks s.kernel t.kernel

theorem Wears.trans (s t u : GenState) (first : Wears s t) (second : Wears t u) : Wears s u :=
  Shrinks.trans first second

theorem SameKernel.wears (same : SameKernel s t) : Wears s t := .inl same

/-- The basic actions of the generator leave the live system alone. -/
theorem kernelRules (d : Handle) (ifname : String) :
    Rules d ifname (fun _ => True) SameKernel where
  refl _ := rfl
  trans _ _ _ first second := second.trans first
  opensInit _ s := by
    unfold openInit
    split
    · rfl
    · rfl
  printsInit _ _ := rfl
  opensExit _ _ := rfl
  printsExit _ _ := rfl
  opensReload _ := rfl
  printsReload _ := rfl
  adds _ s := by
    unfold addDep
    split
    · rfl
    · rfl
  skips _ _ := rfl

theorem Refs.any (cif : Ptr) : Refs (fun _ => True) cif := ⟨fun _ => trivial, fun _ => trivial, fun _ => trivial⟩

theorem addNode_kernel (d : Handle) (node : String) :
    Always SameKernel (addNode d node) := by
  intro s
  unfold addNode
  split
  · rfl
  · rfl

theorem init_kernel (d : Handle) (cifs difs : Ptr) :
    Always SameKernel (netdagInit d cifs difs) := by
  have rules := kernelRules d ""
  refine .bind rules.trans ?_ fun _ => ?_
  · exact .forEach rules.refl rules.trans _ fun _ _ => addNode_kernel d _
  · exact .forEach rules.refl rules.trans _ fun _ _ => addNode_kernel d _

/-- The configuration found for a diff is that of the interface of its name. -/
theorem findCif_name (cifs dif : Ptr) :
    (findCif cifs dif).isNull = false → ifaceName (findCif cifs dif) = ifaceName dif := by
  unfold findCif
  cases found : (lyxListForEach cifs "interface").find? fun cif => ifaceName cif = ifaceName dif with
  | none => simp [Ptr.null, Ptr.isNull]
  | some cif => exact fun _ => by simpa using List.find?_some found

theorem genLink_file (returned : genLink d fixed op dif cif s = (.ok ip, t)) :
    ip = initFile d (ifaceName dif) (50, "init.ip") := by
  obtain ⟨file, u, opened, rest⟩ := bind_ok.mp returned
  obtain ⟨_, _, _, rest⟩ := bind_ok.mp rest
  obtain ⟨_, _, _, rest⟩ := bind_ok.mp rest
  obtain ⟨_, _, _, rest⟩ := bind_ok.mp rest
  obtain ⟨_, _, _, rest⟩ := bind_ok.mp rest
  obtain ⟨_, _, _, rest⟩ := bind_ok.mp rest
  obtain ⟨_, _, _, rest⟩ := bind_ok.mp rest
  obtain ⟨_, _, _, rest⟩ := bind_ok.mp rest
  rw [← (pure_ok.mp rest).1]
  exact openInit_file opened

theorem markCreated_enabled (family : Family) (cif : Ptr) :
    familyEnabled family (markCreated cif) = familyEnabled family cif := by
  have below : (lydxGetChild (markCreated cif) family.proto).nodes = (lydxGetChild cif family.proto).nodes :=
    lydxGetDescendant_nodes [family.proto] (markCreated_child cif)
  simp only [familyEnabled, lydxIsEnabled, isNull_nodes below, lydxGetCattr_nodes _ below]

/-- What is pending is the interface itself, perhaps with its configuration for
the diff. -/
structure Pending.For (pending : Pending) (d : Handle) (cif dif : Ptr) : Prop where
  file : pending.ip = initFile d (ifaceName pending.dif) (50, "init.ip")
  named : ifaceName pending.dif = ifaceName dif
  enabled : ∀ family, familyEnabled family pending.cif = familyEnabled family cif
  kept : lydxGetOp dif ≠ .delete

theorem untilAddresses_pending (named : cif.isNull = false → ifaceName cif = ifaceName dif)
    (returned : genUntilAddresses d dif cif s = (.ok (some pending), t)) : pending.For d cif dif := by
  obtain ⟨start, _, _, rest⟩ := bind_ok.mp returned
  split at rest
  · obtain ⟨_, _, _, last⟩ := bind_ok.mp rest
    have impossible := (pure_ok.mp last).1
    simp at impossible
  · rename_i kept
    obtain ⟨must, _, decided, rest⟩ := bind_ok.mp rest
    split at rest
    · rename_i yes
      obtain ⟨_, _, _, rest⟩ := bind_ok.mp rest
      obtain ⟨ip, _, linked, last⟩ := bind_ok.mp rest
      obtain rfl := Option.some.inj (pure_ok.mp last).1
      have configured := mustDel_not_null (yes ▸ decided)
      exact ⟨genLink_file linked, (markCreated_name cif).trans (named configured),
        fun family => markCreated_enabled family cif, kept⟩
    · obtain ⟨ip, _, linked, last⟩ := bind_ok.mp rest
      obtain rfl := Option.some.inj (pure_ok.mp last).1
      exact ⟨genLink_file linked, rfl, fun _ => rfl, kept⟩

section Addresses
variable {d : Handle} {dif cif : Ptr} {family : Family}

/-- The addresses of an enabled family go to the script. -/
theorem addrs_enabled (enabled : familyEnabled family cif = true) :
    Always SameKernel
      (netdagGenIpAddrs (initFile d (ifaceName dif) (50, "init.ip")) family cif dif) := by
  have rules := kernelRules d (ifaceName dif)
  refine .ite (fun disabled => by simp [enabled] at disabled) fun _ => ?_
  exact .ite (fun _ => rules.confAddrs _) fun _ => rules.diffAddrs _

/-- Those of any other family are flushed. -/
theorem addrs_disabled (disabled : familyEnabled family cif = false) (ip : Path) (s : GenState) :
    netdagGenIpAddrs ip family cif dif s =
      (.ok (), { s with kernel := s.kernel.addrFlush family (ifaceName dif) }) := by
  rw [netdagGenIpAddrs, if_pos (by simp [disabled]), flushLive_eq]

end Addresses

theorem untilAddresses_kernel (d : Handle) (cifs dif : Ptr) :
    Always SameKernel (genUntilAddresses d dif (findCif cifs dif)) :=
  (kernelRules d (ifaceName dif)).untilAddresses dif _ rfl (findCif_name cifs dif) (.any _)

/-- The generator up to some of the interfaces of the diff. -/
def upTo (d : Handle) (cfg diff : List Node) (before : List Ptr) : Gen Unit := do
  netdagInit d (interfacesOf cfg) (interfacesOf diff)
  Program.forEach before fun dif => netdagGenIface d dif (findCif (interfacesOf cfg) dif)

/-- The generator gets as far as the addresses of one family of an interface:
neither the interfaces before it in the diff nor its own link fail. -/
def Arrives (d : Handle) (cfg diff : List Node) (start : GenState) (family : Family) (dif : Ptr)
    (pending : Pending) : Prop :=
  ∃ before after s t, lyxListForEach (interfacesOf diff) "interface" = before ++ dif :: after ∧
    upTo d cfg diff before start = (.ok (), s) ∧
    genUntilAddresses d dif (findCif (interfacesOf cfg) dif) s = (.ok (some pending), t) ∧
    (family = .ipv6 → ∃ u, netdagGenIpAddrs pending.ip .ipv4 pending.cif pending.dif t = (.ok (), u))

/-- The live system has an address of a family that the new configuration does
not have or has disabled. -/
def Loses (cfg : List Node) (k : Kernel) (family : Family) (dif : Ptr) : Prop :=
  familyEnabled family (findCif (interfacesOf cfg) dif) = false ∧ Stale k family (ifaceName dif)

theorem generate_split (all : lyxListForEach (interfacesOf diff) "interface" = before ++ rest)
    (reached : upTo d cfg diff before start = (.ok (), s)) :
    generate d cfg diff start =
      forEach rest (fun dif => netdagGenIface d dif (findCif (interfacesOf cfg) dif)) s := by
  obtain ⟨_, t, init, sofar⟩ := bind_ok.mp reached
  rw [generate, all, bind_eq init, forEach_append, bind_eq sofar]

theorem upTo_snoc (reached : upTo d cfg diff before start = (.ok (), s))
    (next : netdagGenIface d dif (findCif (interfacesOf cfg) dif) s = (.ok (), t)) :
    upTo d cfg diff (before ++ [dif]) start = (.ok (), t) := by
  obtain ⟨_, u, init, sofar⟩ := bind_ok.mp reached
  rw [upTo, bind_eq init, forEach_append, bind_eq sofar]
  exact (bind_eq next _).trans rfl

theorem admin_kernel {d : Handle} {dif cif : Ptr} : Always SameKernel
    (genAdmin d dif cif (initFile d (ifaceName dif) (50, "init.ip"))) :=
  (kernelRules d (ifaceName dif)).admin dif cif rfl

/-- The relation `rel` holds between states of one live system and across a
flush, which is all that the generator does to it. -/
structure FlushRules (rel : GenState → GenState → Prop) : Prop where
  trans : ∀ s t u, rel s t → rel t u → rel s u
  same : SameKernel s t → rel s t
  flush : rel s { s with kernel := s.kernel.addrFlush family ifname }

namespace FlushRules
variable {rel : GenState → GenState → Prop} {d : Handle} {dif cif : Ptr}

theorem refl (rules : FlushRules rel) (s : GenState) : rel s s := rules.same rfl

theorem addrs (rules : FlushRules rel) : Always rel
    (netdagGenIpAddrs (initFile d (ifaceName dif) (50, "init.ip")) family cif dif) := by
  intro s
  cases enabled : familyEnabled family cif with
  | true => exact rules.same (addrs_enabled enabled s)
  | false =>
    rw [addrs_disabled enabled]
    exact rules.flush

theorem afterIpv4 (rules : FlushRules rel) : Always rel (do
    netdagGenIpAddrs (initFile d (ifaceName dif) (50, "init.ip")) .ipv6 cif dif
    genAdmin d dif cif (initFile d (ifaceName dif) (50, "init.ip")) : Gen Unit) :=
  .bind rules.trans rules.addrs fun _ s => rules.same (admin_kernel s)

theorem iface (rules : FlushRules rel) (d : Handle) (cifs dif : Ptr) : Always rel
    (netdagGenIface d dif (findCif cifs dif)) := by
  refine .bindOf rules.trans (fun s => rules.same (untilAddresses_kernel d cifs dif s)) ?_
  intro s result t returned
  cases result with
  | none => exact .pure rules.refl _
  | some pending =>
    simp only [(untilAddresses_pending (findCif_name cifs dif) returned).file]
    exact .bind rules.trans rules.addrs fun _ => rules.afterIpv4

theorem ifaces (rules : FlushRules rel) (d : Handle) (cifs : Ptr) (difs : List Ptr) :
    Always rel (forEach difs fun dif => netdagGenIface d dif (findCif cifs dif)) :=
  .forEach rules.refl rules.trans _ fun dif _ => rules.iface d cifs dif

theorem upTo (rules : FlushRules rel) (d : Handle) (cfg diff : List Node) (before : List Ptr) :
    Always rel (upTo d cfg diff before) :=
  .bind rules.trans (fun s => rules.same (init_kernel d _ _ s)) fun _ => rules.ifaces d _ _

end FlushRules

theorem wearRules : FlushRules Wears where
  trans := Wears.trans
  same := SameKernel.wears
  flush := addrFlush_shrinks _ _ _

/-- If the whole run leaves the system as it was, so does each flush in it. -/
theorem flush_harmless (same : (generate d cfg diff start).2.kernel = start.kernel)
    (arrives : Arrives d cfg diff start family dif pending) : ¬Loses cfg start.kernel family dif := by
  rintro ⟨off, stale⟩
  obtain ⟨before, after, s, t, all, reached, linked, earlier⟩ := arrives
  have sofar : Wears start t := ((wearRules.upTo d cfg diff before).apply reached).trans _ _ _
    ((untilAddresses_kernel d (interfacesOf cfg) dif).apply linked).wears
  have it := untilAddresses_pending (findCif_name _ dif) linked
  have disabled : familyEnabled family pending.cif = false := (it.enabled family).trans off
  rw [← it.named] at stale
  have run : generate d cfg diff start = ((do
      netdagGenIpAddrs pending.ip .ipv4 pending.cif pending.dif
      netdagGenIpAddrs pending.ip .ipv6 pending.cif pending.dif
      genAdmin d pending.dif pending.cif pending.ip) >>= fun _ =>
        forEach after fun dif => netdagGenIface d dif (findCif (interfacesOf cfg) dif) : Gen Unit) t := by
    rw [generate_split all reached]
    exact bind_from (bind_eq linked _) _
  have rest := wearRules.ifaces d (interfacesOf cfg) after
  rw [it.file] at run earlier
  cases family with
  | ipv4 =>
    refine addrFlush_harmless sofar ?_ stale
    rw [bind_from (bind_eq (addrs_disabled disabled _ t) _)] at run
    rw [← same, run]
    exact Always.bind Wears.trans wearRules.afterIpv4 (fun _ => rest) ⟨t.tree, _⟩
  | ipv6 =>
    obtain ⟨u, first⟩ := earlier rfl
    refine addrFlush_harmless (sofar.trans _ _ _ (wearRules.addrs.apply first)) ?_ stale
    rw [bind_from (bind_eq first _), bind_from (bind_eq (addrs_disabled disabled _ u) _)] at run
    rw [← same, run]
    exact Always.bind Wears.trans (fun s => (admin_kernel s).wears) (fun _ => rest) ⟨u.tree, _⟩

/-- Nothing that is reached would be lost. -/
def Clean (d : Handle) (cfg diff : List Node) (start : GenState) : Prop :=
  ∀ family dif pending, Arrives d cfg diff start family dif pending → ¬Loses cfg start.kernel family dif

/-- One family of an interface, on a system that is still as it was. -/
theorem addrs_clean {d : Handle} {dif cif : Ptr} {start s : GenState} (same : s.kernel = start.kernel)
    (clean : familyEnabled family cif = false → ¬Stale start.kernel family (ifaceName dif)) :
    (netdagGenIpAddrs (initFile d (ifaceName dif) (50, "init.ip")) family cif dif s).2.kernel =
      start.kernel := by
  cases enabled : familyEnabled family cif with
  | true => exact (addrs_enabled enabled s).trans same
  | false =>
    rw [addrs_disabled enabled, same]
    exact addrFlush_same _ (clean enabled)

theorem iface_clean (clean : Clean d cfg diff start)
    (all : lyxListForEach (interfacesOf diff) "interface" = before ++ dif :: after)
    (reached : upTo d cfg diff before start = (.ok (), s)) (same : s.kernel = start.kernel) :
    (netdagGenIface d dif (findCif (interfacesOf cfg) dif) s).2.kernel = start.kernel := by
  have unharmed := untilAddresses_kernel d (interfacesOf cfg) dif
  refine bind_state (P := SameKernel start) ((unharmed s).trans same) ?_
  intro result t linked
  have kept : t.kernel = start.kernel := (unharmed.apply linked).trans same
  cases result with
  | none => exact kept
  | some pending =>
    have it := untilAddresses_pending (findCif_name _ dif) linked
    have harmless := fun family earlier disabled stale =>
      clean family dif pending ⟨before, after, s, t, all, reached, linked, earlier⟩
        ⟨(it.enabled family).symm.trans disabled, it.named ▸ stale⟩
    simp only [it.file] at harmless ⊢
    have first := addrs_clean (d := d) kept (harmless .ipv4 (by simp))
    refine bind_state (P := SameKernel start) first fun _ u ran => ?_
    rw [ran] at first
    have second := addrs_clean (d := d) first (harmless .ipv6 fun _ => ⟨u, ran⟩)
    refine bind_state (P := SameKernel start) second fun _ v done => ?_
    rw [done] at second
    exact (admin_kernel v).trans second

/-- Along the rest of the diff, by induction on it. -/
theorem ifaces_clean (clean : Clean d cfg diff start)
    (all : lyxListForEach (interfacesOf diff) "interface" = before ++ rest)
    (reached : upTo d cfg diff before start = (.ok (), s)) (same : s.kernel = start.kernel) :
    (forEach rest (fun dif => netdagGenIface d dif (findCif (interfacesOf cfg) dif)) s).2.kernel =
      start.kernel := by
  induction rest generalizing before s with
  | nil => exact same
  | cons dif rest ih =>
    have here := iface_clean clean all reached same
    refine bind_state (P := SameKernel start) here fun _ t ran => ?_
    beta_reduce at ran
    rw [ran] at here
    exact ih (by rw [all, List.append_assoc, List.singleton_append]) (upTo_snoc reached ran) here

theorem generate_clean (clean : Clean d cfg diff start) :
    (generate d cfg diff start).2.kernel = start.kernel := by
  have unharmed := init_kernel d (interfacesOf cfg) (interfacesOf diff)
  refine bind_state (P := SameKernel start) (unharmed start) fun _ s init => ?_
  have reached : upTo d cfg diff [] start = (.ok (), s) := (bind_eq init _).trans rfl
  exact ifaces_clean clean (List.nil_append _).symm reached (unharmed.apply init)

theorem generate_kernel_iff (d : Handle) (cfg diff : List Node) (start : GenState) :
    (generate d cfg diff start).2.kernel = start.kernel ↔ Clean d cfg diff start :=
  ⟨fun same _ _ _ arrives => flush_harmless same arrives, generate_clean⟩

/-- A run without an error gets to every interface that is not deleted. -/
theorem generate_arrives (done : generate d cfg diff start = (.ok (), last))
    (listed : dif ∈ lyxListForEach (interfacesOf diff) "interface") (kept : lydxGetOp dif ≠ .delete)
    (family : Family) : ∃ pending, Arrives d cfg diff start family dif pending := by
  obtain ⟨before, after, all⟩ := List.append_of_mem listed
  obtain ⟨_, s, init, rest⟩ := bind_ok.mp done
  rw [all, forEach_append] at rest
  obtain ⟨_, t, sofar, rest⟩ := bind_ok.mp rest
  have reached : upTo d cfg diff before start = (.ok (), t) := (bind_eq init _).trans sofar
  obtain ⟨_, u, here, _⟩ := bind_ok.mp rest
  obtain ⟨result, v, linked, rest⟩ := bind_ok.mp here
  cases result with
  | none =>
    obtain ⟨_, _, _, linked⟩ := bind_ok.mp linked
    rw [if_neg kept] at linked
    obtain ⟨must, _, _, linked⟩ := bind_ok.mp linked
    cases must with
    | true =>
      obtain ⟨_, _, _, linked⟩ := bind_ok.mp linked
      obtain ⟨_, _, _, linked⟩ := bind_ok.mp linked
      exact absurd (pure_ok.mp linked).1 (by simp)
    | false =>
      obtain ⟨_, _, _, linked⟩ := bind_ok.mp linked
      exact absurd (pure_ok.mp linked).1 (by simp)
  | some pending =>
    obtain ⟨_, w, first, _⟩ := bind_ok.mp rest
    exact ⟨pending, before, after, t, v, all, reached, linked, fun _ => ⟨w, first⟩⟩

/-- A run without an error leaves the system alone exactly when no interface has
anything to lose. -/
theorem generate_ok_kernel_iff (done : generate d cfg diff start = (.ok (), last)) :
    last.kernel = start.kernel ↔
      ∀ dif ∈ lyxListForEach (interfacesOf diff) "interface", lydxGetOp dif ≠ .delete →
        ∀ family, ¬Loses cfg start.kernel family dif := by
  have exactly := generate_kernel_iff d cfg diff start
  rw [done] at exactly
  rw [exactly]
  constructor
  case mp =>
    intro clean dif listed kept family
    obtain ⟨pending, arrives⟩ := generate_arrives done listed kept family
    exact clean family dif pending arrives
  case mpr =>
    rintro harmless family dif pending ⟨before, after, s, t, all, _, linked, _⟩
    have listed : dif ∈ lyxListForEach (interfacesOf diff) "interface" := by simp [all]
    exact harmless dif listed (untilAddresses_pending (findCif_name _ dif) linked).kept family

/-- The interfaces of a CHANGE that are handled before it fails, if it does, have
nothing to lose. -/
def HandledClean (base : String) (change : Change) (net : Net) : Prop :=
  let world := net.world.step base (.claim change.faults)
  world.live = true → change.dataRc = .ok → change.diffRc = .ok →
    Clean world.handle change.cfg change.diff ⟨world.tree, net.kernel⟩

/-- No interface of the diff that is not deleted has anything to lose. -/
def NothingToLose (change : Change) (k : Kernel) : Prop :=
  ∀ dif ∈ lyxListForEach (interfacesOf change.diff) "interface", lydxGetOp dif ≠ .delete →
    ∀ family, ¬Loses change.cfg k family dif

/-- The kernel is the same after the CHANGE, and after an ABORT that follows. -/
def Untouched (base : String) (change : Change) (net : Net) : Prop :=
  (ifchange base change net).2.kernel = net.kernel ∧
    ∀ stamp, (ifchangeAbort base stamp (ifchange base change net).2).2.kernel = net.kernel

theorem untouched_iff (base : String) (change : Change) (net : Net) :
    Untouched base change net ↔ (ifchange base change net).2.kernel = net.kernel :=
  ⟨fun both => both.1, fun same => ⟨same, fun _ => same⟩⟩

/-- What a claimed CHANGE leaves of the live system is what the generator left. -/
theorem claimed_kernel (base : String) (change : Change) (net : Net) (data : change.dataRc = .ok)
    (diff : change.diffRc = .ok) :
    (ifchangeClaimed base change net).2.kernel = (net.generated change).2.kernel := by
  unfold ifchangeClaimed
  rw [if_neg (by simp [data]), if_neg (by simp [diff])]
  split
  · rename_i state generated
    rw [generated]
    rfl
  · rename_i state generated
    rw [generated]
    rfl

theorem untouched_handled (base : String) (change : Change) (net : Net) :
    Untouched base change net ↔ HandledClean base change net := by
  rw [untouched_iff, ifchange, HandledClean]
  by_cases live : (net.world.step base (.claim change.faults)).live = true
  · simp only [live, if_true, forall_const]
    by_cases data : change.dataRc = .ok
    · by_cases diff : change.diffRc = .ok
      · rw [claimed_kernel base change _ data diff]
        simp only [data, diff, forall_const]
        exact generate_kernel_iff _ _ _ _
      · simp [ifchangeClaimed, data, diff, abandon]
    · simp [ifchangeClaimed, data, abandon]
  · simp [live]

/-- A CHANGE that succeeds has claimed, and has generated to the end. -/
theorem ifchange_ok (ok : (ifchange base change net).1 = .ok) :
    (net.world.step base (.claim change.faults)).live = true ∧ change.dataRc = .ok ∧
      change.diffRc = .ok ∧ ∃ state,
        Net.generated ⟨net.world.step base (.claim change.faults), net.kernel⟩ change = (.ok (), state) ∧
        (ifchange base change net).2 =
          Net.put ⟨net.world.step base (.claim change.faults), net.kernel⟩ state := by
  unfold ifchange at ok ⊢
  simp only at ok ⊢
  split at ok
  · rename_i live
    refine ⟨live, ?_⟩
    rw [if_pos live]
    unfold ifchangeClaimed at ok ⊢
    split at ok
    · exact absurd ok ‹_›
    · rename_i data
      split at ok
      · exact absurd ok ‹_›
      · rename_i diff
        rw [if_neg data, if_neg diff]
        simp only [ne_eq, not_not] at data diff
        refine ⟨data, diff, ?_⟩
        split at ok
        · rename_i state generated
          exact ⟨state, generated, rfl⟩
        · simp at ok
  · simp at ok

/-- Exactly when preparing a transaction leaves the live system alone: of the
interfaces that are handled, none has an address of a family that is absent or
disabled in the new configuration. When the CHANGE succeeds these are all
interfaces of the diff that are not deleted. -/
theorem ifchange_untouched_iff (base : String) (change : Change) (net : Net) :
    (Untouched base change net ↔ HandledClean base change net) ∧
      ((ifchange base change net).1 = .ok →
        (Untouched base change net ↔ NothingToLose change net.kernel)) := by
  refine ⟨untouched_handled base change net, fun ok => ?_⟩
  obtain ⟨_, _, _, state, generated, left⟩ := ifchange_ok ok
  rw [untouched_iff, left]
  exact generate_ok_kernel_iff generated

/-- The configuration of one Ethernet interface with a static address. -/
def ethernet (ipv4 : String) : List Node :=
  [.inner "interfaces" [] .plain [.inner "interface" ["name"] .plain
    [.leaf "name" "eth0" false .plain, .leaf "type" "iana-if-type:ethernetCsmacd" false .plain,
      .inner "ipv4" [] .plain [.leaf "enabled" ipv4 false .plain, .inner "address" ["ip"] .plain
        [.leaf "ip" "192.0.2.1" false .plain, .leaf "prefix-length" "24" false .plain]]]]]

def ethernetChange (old new : List Node) : Change :=
  ⟨fun _ => false, .ok, new, .ok, diffSiblings old new, firstDay⟩

/-- After a first commit, whose scripts have given the link its address. -/
def addressed : Net :=
  let bare : Net := ⟨.initial, ⟨[⟨"eth0", .ether, [], []⟩]⟩⟩
  let committed := ifchangeDone "/run/net" (plainEnv [["/run/net/0/action/init/eth0/50-init.ip"]])
    firstDay (ifchange "/run/net" (ethernetChange [] (ethernet "true")) bare).2
  ⟨committed.2.world, ⟨[⟨"eth0", .ether, ["192.0.2.1/24"], []⟩]⟩⟩

/-- A CHANGE that switches IPv4 off takes the address away, and an ABORT does not
bring it back. -/
theorem ifchange_flushes_address :
    let change := ethernetChange (ethernet "true") (ethernet "false")
    let changed := ifchange "/run/net" change addressed
    addressed.world.tree.get ["current"] = some (.file [.num 0] false) ∧ changed.1 = .ok ∧
      (ifchangeAbort "/run/net" ⟨"2023-06-06", by decide⟩ changed.2).2.kernel.links =
        [⟨"eth0", .ether, [], []⟩] ∧
      ¬Untouched "/run/net" change addressed := by
  refine ⟨by decide +kernel, by decide +kernel, by decide +kernel, fun untouched => ?_⟩
  exact absurd untouched.1 (by decide +kernel)

end Netdag
