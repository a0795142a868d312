import InfixOS.Netdag.Acts
import InfixOS.Netdag.LiveSystem

/-! Each generator function makes the requests of its list. -/
namespace Netdag
open Dagger Exec Exec.Program Lyx Posix Yang

section
variable {d : Handle} {dif cif : Ptr} {ifname : String}

theorem print_emits (v : String) (script : Nat × String) (piece : Piece) :
    Emits d (print (initFile d v script) piece) [.print .init v script piece] := by
  intro s a t printed
  simp only [print, onTree, update, Prod.mk.injEq] at printed
  rw [← printed.2]
  exact .single rfl

theorem printExit_emits (attached : 0 ≤ d.current) (v : String) (script : Nat × String) (piece : Piece) :
    Emits d (print (exitFile d v script) piece) [.print .exit v script piece] := by
  intro s a t printed
  simp only [print, onTree, update, Prod.mk.injEq] at printed
  rw [← printed.2]
  refine .single ?_
  simp only [Act.run, attached, decide_true]

theorem printIp_emits (piece : Piece) :
    Emits d (print (initFile d ifname (50, "init.ip")) piece) (ipLines ifname [piece]) :=
  print_emits ifname (50, "init.ip") piece

theorem openInit_emits (v : String) (prio : Nat) (script : String) :
    Emits d (openInit d v prio script) [.fopen .init v (prio, script)] := by
  intro s file t opened
  unfold openInit at opened
  cases result : daggerFopenNext d s.tree "init" v prio script with
  | mk tree outcome =>
    rw [result] at opened
    cases outcome with
    | error e => simp at opened
    | ok path =>
      simp only [Prod.mk.injEq] at opened
      rw [← opened.2]
      refine .single ?_
      simp only [Act.run, result, isOk]

theorem openExit_performs (opened : openExit d v prio script s = (.ok (.ok file), t)) :
    Performs d s.tree [.fopen .exit v (prio, script)] t.tree := by
  unfold openExit at opened
  cases result : daggerFopenCurrent d s.tree "exit" v prio script with
  | mk tree outcome =>
    rw [result] at opened
    simp only [Prod.mk.injEq, Except.ok.injEq] at opened
    rw [← opened.2]
    refine .single ?_
    simp only [Act.run, result, opened.1, isOk]

theorem daggerFopen_attached {t : Base Piece} :
    (daggerFopen t gen action v prio script).2 ≠ .error .EUNATCH := by
  unfold daggerFopen
  split
  · simp
  · split
    · simp
    · simp only
      split
      · simp
      · simp

/-- There is nothing to detach from exactly in bootstrap. -/
theorem openExit_unattached (opened : openExit d v prio script s = (.ok (.error .EUNATCH), t)) :
    d.current < 0 ∧ s = t := by
  unfold openExit daggerFopenCurrent at opened
  by_cases fresh : d.current < 0
  · simp only [fresh, if_true, Prod.mk.injEq] at opened
    exact ⟨fresh, opened.2⟩
  · simp only [fresh, if_false, Prod.mk.injEq, Except.ok.injEq] at opened
    exact absurd opened.1 daggerFopen_attached

theorem addDep_emits (depender dependee : String) :
    Emits d (addDep d depender dependee) [.dep depender dependee] := by
  intro s a t added
  unfold addDep at added
  cases result : daggerAddDep d s.tree depender dependee with
  | mk tree ok =>
    rw [result] at added
    cases ok with
    | false => simp at added
    | true =>
      simp only [Prod.mk.injEq] at added
      rw [← added.2]
      exact .single result

theorem addNode_emits (v : String) : Emits d (addNode d v) [.node v] := by
  intro s a t added
  unfold addNode at added
  cases result : daggerAddNode d s.tree v with
  | mk tree ok =>
    rw [result] at added
    cases ok with
    | false => simp at added
    | true =>
      simp only [Prod.mk.injEq] at added
      rw [← added.2]
      exact .single result

theorem exitReload_emits : Emits d (netdagExitReload d) reloadActs := by
  intro s a u returned
  obtain ⟨result, t, opened, rest⟩ := bind_ok.mp returned
  cases result with
  | error e => exact absurd rest fail_ok
  | ok file =>
    obtain ⟨same, attached⟩ := openExit_file opened
    obtain rfl : file = exitFile d "@post" (90, "reload.sh") := same
    exact (openExit_performs opened).append (printExit_emits attached _ _ _ t a u rest)

theorem diffAddr_emits (addr : Ptr) :
    Emits d (netdagGenDiffAddr (initFile d ifname (50, "init.ip")) ifname addr)
      (ipLines ifname (diffAddrPieces ifname addr)) := by
  refine .checked fun _ => ?_
  refine ((Emits.onlyIf fun _ => printIp_emits _).bind fun _ => .onlyIf fun _ => printIp_emits _).congr ?_
  simp only [ipLines, diffAddrPieces, List.map_append, apply_ite (List.map _), List.map_nil,
    decide_eq_true_eq]

theorem ipAddrs_emits (family : Family) :
    Emits d (netdagGenIpAddrs (initFile d (ifaceName dif) (50, "init.ip")) family cif dif)
      (ipLines (ifaceName dif) (addressPieces family cif dif)) := by
  unfold netdagGenIpAddrs addressPieces
  simp only [ipLines, apply_ite (List.map _)]
  refine .ite (fun _ => ?_) fun _ => .ite (fun _ => ?_) fun _ => ?_
  · intro s a t flushed
    simp only [flushLive, update, Prod.mk.injEq] at flushed
    have same : t.tree = s.tree := by
      rw [← flushed.2]
      split
      · rfl
      · rfl
    rw [same]
    exact .nil
  · refine (Emits.forEach _ fun addr _ => printIp_emits _).congr ?_
    rw [List.map_map, List.map_eq_flatMap]
    rfl
  · refine (Emits.forEach _ fun addr _ => diffAddr_emits addr).congr ?_
    simp only [ipLines, List.map_flatMap]

theorem ipv6Autoconf_emits : Emits d (netdagGenIpv6Autoconf (initFile d ifname (50, "init.ip")) cif dif)
    (ipLines ifname (ipv6AutoconfPieces cif dif)) := by
  cases verdict : autoconfVerdict .ipv6 "create-global-addresses" true cif dif with
  | none =>
    simp only [netdagGenIpv6Autoconf, ipv6AutoconfPieces, verdict]
    exact .pure ()
  | some on =>
    cases on with
    | true =>
      simp only [netdagGenIpv6Autoconf, ipv6AutoconfPieces, verdict]
      exact printIp_emits _
    | false =>
      simp only [netdagGenIpv6Autoconf, ipv6AutoconfPieces, verdict]
      exact printIp_emits _

theorem zeroconfDown_emits :
    Emits d (do
      match ← openExit d ifname 40 "zeroconf-down.sh" with
      | .error .EUNATCH => pure ()
      | .error _ => .fail .eio
      | .ok initctl => do
        print initctl (.zeroconfDisable ifname)
        netdagExitReload d : Gen Unit)
      (if d.current < 0 then [] else [.fopen .exit ifname (40, "zeroconf-down.sh"),
        .print .exit ifname (40, "zeroconf-down.sh") (.zeroconfDisable ifname)] ++ reloadActs) := by
  intro s a u returned
  obtain ⟨result, t, opened, rest⟩ := bind_ok.mp returned
  split at rest
  · obtain ⟨fresh, rfl⟩ := openExit_unattached opened
    rw [if_pos fresh]
    exact Emits.pure () s a u rest
  · exact absurd rest fail_ok
  · rename_i file
    obtain ⟨same, attached⟩ := openExit_file opened
    obtain rfl : file = exitFile d ifname (40, "zeroconf-down.sh") := same
    rw [if_neg (by omega)]
    have told := (printExit_emits attached _ _ _).bind (fun _ => exitReload_emits) t a u rest
    exact (openExit_performs opened).append told

theorem ipv4Autoconf_emits : Emits d (netdagGenIpv4Autoconf d cif dif) (ipv4AutoconfActs d cif dif) := by
  cases verdict : autoconfVerdict .ipv4 "enabled" false cif dif with
  | none =>
    simp only [netdagGenIpv4Autoconf, ipv4AutoconfActs, verdict]
    exact .pure ()
  | some on =>
    cases on with
    | true =>
      simp only [netdagGenIpv4Autoconf, ipv4AutoconfActs, verdict]
      refine (openInit_emits _ _ _).bindOf fun s file t opened => ?_
      obtain rfl : file = initFile d (ifaceName dif) (60, "zeroconf-up.sh") := openInit_file opened
      exact print_emits _ _ _
    | false =>
      simp only [netdagGenIpv4Autoconf, ipv4AutoconfActs, verdict]
      exact zeroconfDown_emits

theorem sysctlBool_quiet (d : Handle) (ifname : String) (fp : Option Path) (family : String) {node : Ptr}
    (quiet : (node.isNull || !(lydxGetDiff node).modified) = true) :
    netdagGenSysctlBool d ifname fp node family = pure fp ∧ forwardingActs ifname node family = [] := by
  simp only [netdagGenSysctlBool, forwardingActs, quiet, if_true, and_self]

/-- The line goes to the open file, or the file is opened for it. -/
theorem sysctlBool_emits {node : Ptr} (loud : ¬(node.isNull || !(lydxGetDiff node).modified) = true) :
    Emits d (netdagGenSysctlBool d ifname none node family)
        (.fopen .init ifname (60, "init.sysctl") :: forwardingActs ifname node family) ∧
      Emits d (netdagGenSysctlBool d ifname (some (initFile d ifname (60, "init.sysctl"))) node family)
        (forwardingActs ifname node family) := by
  simp only [netdagGenSysctlBool, forwardingActs, loud]
  constructor
  · refine (openInit_emits _ _ _).bindOf fun s file t opened => ?_
    obtain rfl : file = initFile d ifname (60, "init.sysctl") := openInit_file opened
    exact (print_emits _ _ _).bind fun _ => .pure _
  · exact .afterPure ((print_emits _ _ _).bind fun _ => .pure _)

theorem sysctlBool_opened {node : Ptr} (loud : ¬(node.isNull || !(lydxGetDiff node).modified) = true)
    (opened : netdagGenSysctlBool d ifname none node family s = (.ok fp, t)) :
    fp = some (initFile d ifname (60, "init.sysctl")) := by
  simp only [netdagGenSysctlBool, loud] at opened
  obtain ⟨file, u, first, rest⟩ := bind_ok.mp opened
  obtain ⟨_, v, _, last⟩ := bind_ok.mp rest
  rw [← (pure_ok.mp last).1]
  exact congrArg some (openInit_file first)

theorem sysctl_emits : Emits d (netdagGenSysctl d dif) (sysctlActs dif) := by
  simp only [netdagGenSysctl, sysctlActs]
  generalize lydxGetDescendant (lydChild dif) ["ipv4", "forwarding"] = ipv4
  generalize lydxGetDescendant (lydChild dif) ["ipv6", "forwarding"] = ipv6
  by_cases quiet : (ipv4.isNull || !(lydxGetDiff ipv4).modified) = true
  · obtain ⟨nothing, none4⟩ := sysctlBool_quiet d (ifaceName dif) none "ipv4" quiet
    rw [nothing, none4, List.nil_append]
    refine .afterPure ?_
    by_cases still : (ipv6.isNull || !(lydxGetDiff ipv6).modified) = true
    · obtain ⟨nothing, none6⟩ := sysctlBool_quiet d (ifaceName dif) none "ipv6" still
      rw [nothing, none6, if_pos rfl]
      exact .afterPure (.pure ())
    · rw [if_neg (by simp [forwardingActs, still])]
      exact ((sysctlBool_emits still).1.bind fun _ => .pure ()).congr (List.append_nil _)
  · rw [if_neg (by simp [forwardingActs, quiet]), ← List.cons_append]
    refine (sysctlBool_emits quiet).1.bindOf fun s fp t opened => ?_
    obtain rfl := sysctlBool_opened quiet opened
    by_cases still : (ipv6.isNull || !(lydxGetDiff ipv6).modified) = true
    · obtain ⟨nothing, none6⟩ := sysctlBool_quiet d (ifaceName dif)
        (some (initFile d (ifaceName dif) (60, "init.sysctl"))) "ipv6" still
      rw [nothing, none6]
      exact .afterPure (.pure ())
    · exact ((sysctlBool_emits still).2.bind fun _ => .pure ()).congr (List.append_nil _)

/-- Which end of a pair this is has been asked before anything else. -/
theorem veth_emits (returned : netdagGenVeth d cif (initFile d (ifaceName cif) (50, "init.ip")) s = (.ok a, t)) :
    ∃ skip, Performs d s.tree (vethActs skip cif) t.tree := by
  unfold netdagGenVeth at returned
  split at returned
  · exact absurd returned fail_ok
  · obtain ⟨u, v, same, rest⟩ := bind_ok.mp returned
    obtain ⟨rfl, rfl⟩ := read_ok.mp same
    refine ⟨daggerShouldSkip d s.tree (ifaceName cif), .cons (u := s.tree) (by simp [Act.run]) ?_⟩
    split at rest
    · rename_i skip
      rw [if_pos skip]
      exact addDep_emits _ _ s a t rest
    · rename_i first
      rw [if_neg first]
      obtain ⟨_, w, skipped, printed⟩ := bind_ok.mp rest
      simp only [onTree, update, Prod.mk.injEq] at skipped
      refine .cons (u := w.tree) ?_ (printIp_emits _ w a t printed)
      rw [← skipped.2]
      rfl

theorem vlanProtocol_ok (returned : vlanProtocol tag s = (.ok proto, t)) : proto = protoText tag ∧ s = t := by
  unfold vlanProtocol at returned
  split at returned
  · exact ⟨(pure_ok.mp returned).1.symm, (pure_ok.mp returned).2⟩
  · exact ⟨(pure_ok.mp returned).1.symm, (pure_ok.mp returned).2⟩
  · exact absurd returned fail_ok
  · exact absurd returned fail_ok

theorem printVlan_emits (parent : Option String) (otag : Ptr) :
    Emits d (printVlan ifname parent otag (initFile d ifname (50, "init.ip")))
      (ipLines ifname (vlanPieces ifname parent otag)) := by
  have proto : Emits d (do
      let proto ← vlanProtocol (lydxGetDiff (lydxGetChild otag "tag-type")).new
      print (initFile d ifname (50, "init.ip")) (.vlanProto proto) : Gen Unit)
      (ipLines ifname [.vlanProto (protoText (lydxGetDiff (lydxGetChild otag "tag-type")).new)]) := by
    intro s a u returned
    obtain ⟨text, t, chosen, printed⟩ := bind_ok.mp returned
    obtain ⟨rfl, rfl⟩ := vlanProtocol_ok chosen
    exact printIp_emits _ s a u printed
  refine ((printIp_emits _).bind fun _ => (Emits.onlyIf fun _ => proto).bind fun _ =>
    (Emits.onlyIf fun _ => printIp_emits _).bind fun _ => printIp_emits _).congr ?_
  simp only [ipLines, vlanPieces, List.map_append, List.map_cons, apply_ite (List.map _), List.map_nil,
    List.cons_append, List.nil_append, List.append_assoc]

theorem vlan_emits : Emits d (netdagGenVlan d dif cif (initFile d (ifaceName cif) (50, "init.ip")))
    (vlanActs dif cif) := by
  exact (addDep_emits _ _).bind fun _ => .onlyIf fun _ => printVlan_emits _ _

theorem hasType_iff (cif : Ptr) (iftype : String) : hasType cif iftype = true ↔
    lydxGetCattr cif "type" = some iftype := by simp [hasType]

theorem afspecAdd_emits
    (returned : netdagGenAfspecAdd d cif (initFile d (ifaceName cif) (50, "init.ip")) s = (.ok a, t)) :
    ∃ skip, Performs d s.tree (afspecAddActs skip cif) t.tree := by
  obtain ⟨iftype, u, read, rest⟩ := bind_ok.mp returned
  obtain ⟨found, rfl⟩ := required_ok read
  have typed (other : String) : hasType cif other = decide (iftype = other) := by simp [hasType, found]
  simp only [afspecAddActs, typed, decide_eq_true_eq]
  split at rest
  · rename_i bridge
    simp only [if_pos bridge]
    exact ⟨false, printIp_emits _ s a t rest⟩
  · rename_i noBridge
    simp only [if_neg noBridge]
    split at rest
    · rename_i veth
      simp only [if_pos veth]
      exact veth_emits rest
    · rename_i noVeth
      simp only [if_neg noVeth]
      split at rest
      · rename_i vlan
        simp only [if_pos vlan]
        exact ⟨false, vlan_emits s a t rest⟩
      · exact absurd rest fail_ok

theorem afspecSet_emits : Emits d (netdagGenAfspecSet d dif cif (initFile d (ifaceName cif) (50, "init.ip")))
    (afspecSetActs dif cif) := by
  intro s a t returned
  obtain ⟨iftype, u, read, rest⟩ := bind_ok.mp returned
  obtain ⟨found, rfl⟩ := required_ok read
  have typed (other : String) : hasType cif other = decide (iftype = other) := by simp [hasType, found]
  simp only [afspecSetActs, typed, decide_eq_true_eq]
  split at rest
  · rename_i bridge
    rw [if_pos bridge]
    exact printIp_emits _ s a t rest
  · rename_i noBridge
    rw [if_neg noBridge]
    split at rest
    · rename_i vlan
      rw [if_pos vlan]
      exact vlan_emits s a t rest
    · rename_i noVlan
      rw [if_neg noVlan]
      split at rest
      · exact Emits.pure () s a t rest
      · exact absurd rest fail_ok

theorem bridgeLinks_emits (named : cif.isNull = false → ifaceName cif = ifname) :
    Emits d (netdagBridgeLinks d cif (initFile d ifname (50, "init.ip"))) (bridgeActs cif) := by
  refine .onlyIf fun port => ?_
  have present : (lydxGetDescendant (lydChild cif) ["bridge-port"]).isNull = false := by
    simpa using port
  rw [← named (descendant_not_null present)]
  exact (printIp_emits _).bind fun _ => addDep_emits _ _

/-- A configuration that is used is that of the interface itself. -/
theorem genLink_emits (named : cif.isNull = false → ifaceName cif = ifaceName dif)
    (returned : genLink d fixed op dif cif s = (.ok ip, t)) :
    ∃ skip, Performs d s.tree (linkActs d fixed skip op dif cif) t.tree := by
  obtain ⟨file, s₁, opened, rest⟩ := bind_ok.mp returned
  obtain rfl : file = initFile d (ifaceName dif) (50, "init.ip") := openInit_file opened
  obtain ⟨_, s₂, added, rest⟩ := bind_ok.mp rest
  obtain ⟨_, s₃, downed, rest⟩ := bind_ok.mp rest
  obtain ⟨_, s₄, autoconf4, rest⟩ := bind_ok.mp rest
  obtain ⟨_, s₅, autoconf6, rest⟩ := bind_ok.mp rest
  obtain ⟨_, s₆, bridged, rest⟩ := bind_ok.mp rest
  obtain ⟨_, s₇, ended, rest⟩ := bind_ok.mp rest
  obtain ⟨_, s₈, adjusted, last⟩ := bind_ok.mp rest
  obtain ⟨_, rfl⟩ := pure_ok.mp last
  have first : ∃ skip, Performs d s₁.tree
      (if !fixed && op = .create then afspecAddActs skip cif else []) s₂.tree := by
    unfold onlyIf at added
    split at added
    · rename_i create
      simp only [if_pos create]
      obtain ⟨iftype, u, read, _⟩ := bind_ok.mp added
      have same := named (cattr_not_null (required_ok read).1)
      rw [← same] at added
      exact afspecAdd_emits added
    · rename_i other
      simp only [if_neg other]
      exact ⟨false, Emits.pure () _ _ _ added⟩
  have final : Performs d s₇.tree (if !fixed && op ≠ .create then afspecSetActs dif cif else []) s₈.tree := by
    unfold onlyIf at adjusted
    split at adjusted
    · rename_i adjust
      rw [if_pos adjust]
      obtain ⟨iftype, u, read, _⟩ := bind_ok.mp adjusted
      have same := named (cattr_not_null (required_ok read).1)
      rw [← same] at adjusted
      exact afspecSet_emits _ _ _ adjusted
    · rename_i other
      rw [if_neg other]
      exact Emits.pure () _ _ _ adjusted
  obtain ⟨skip, first⟩ := first
  refine ⟨skip, ?_⟩
  have opening := (openInit_emits _ _ _ _ _ _ opened).append first
  have naming := (opening.append (printIp_emits _ _ _ _ downed)).append (ipv4Autoconf_emits _ _ _ autoconf4)
  have joining := (naming.append (ipv6Autoconf_emits _ _ _ autoconf6)).append
    (bridgeLinks_emits named _ _ _ bridged)
  exact (joining.append (printIp_emits _ _ _ _ ended)).append final

theorem admin_emits : Emits d (genAdmin d dif cif (initFile d (ifaceName dif) (50, "init.ip")))
    (adminActs dif cif) :=
  (Emits.onlyIf fun _ => printIp_emits _).bind fun _ => sysctl_emits

theorem ifaceDel_emits (fixed : Bool) : Emits d (netdagGenIfaceDel d dif fixed) (delActs (ifaceName dif) fixed) := by
  intro s a u returned
  obtain ⟨result, t, opened, rest⟩ := bind_ok.mp returned
  cases result with
  | error e => exact absurd rest fail_ok
  | ok file =>
    obtain ⟨same, attached⟩ := openExit_file opened
    obtain rfl : file = exitFile d (ifaceName dif) (50, "exit.ip") := same
    refine (openExit_performs opened).append ?_
    have line := fun piece => printExit_emits attached (ifaceName dif) (50, "exit.ip") piece
    cases fixed with
    | true => exact (line _).bind (fun _ => line _) t a u rest
    | false => exact line _ t a u rest

end

theorem mustDel_ok (decided : mustDel (lydxGetOp dif) dif cif s = (.ok must, t)) :
    must = recreated dif cif ∧ s = t := by
  unfold mustDel at decided
  split at decided
  · rename_i created
    obtain ⟨rfl, same⟩ := pure_ok.mp decided
    exact ⟨by simp [recreated, created], same⟩
  · rename_i changed
    obtain ⟨iftype, u, read, last⟩ := bind_ok.mp decided
    obtain ⟨found, rfl⟩ := required_ok read
    obtain ⟨rfl, same⟩ := pure_ok.mp last
    exact ⟨by simp [recreated, changed, found, str], same⟩

/-- What is done for the addresses and after them. -/
theorem afterLink_emits {d : Handle} {dif cif : Ptr} : Emits d (do
    netdagGenIpAddrs (initFile d (ifaceName dif) (50, "init.ip")) .ipv4 cif dif
    netdagGenIpAddrs (initFile d (ifaceName dif) (50, "init.ip")) .ipv6 cif dif
    genAdmin d dif cif (initFile d (ifaceName dif) (50, "init.ip")) : Gen Unit)
    (ipLines (ifaceName dif) (addressPieces .ipv4 cif dif ++ addressPieces .ipv6 cif dif) ++
      adminActs dif cif) := by
  refine ((ipAddrs_emits _).bind fun _ => (ipAddrs_emits _).bind fun _ => admin_emits).congr ?_
  simp only [ipLines, List.map_append, List.append_assoc]

theorem setup_emits {d : Handle} {dif cif : Ptr} (named : cif.isNull = false → ifaceName cif = ifaceName dif)
    (linked : genLink d fixed op dif cif s = (.ok ip, t))
    (rest : (do
      netdagGenIpAddrs ip .ipv4 cif dif
      netdagGenIpAddrs ip .ipv6 cif dif
      genAdmin d dif cif ip : Gen Unit) t = (.ok a, u)) :
    ∃ skip, Performs d s.tree (setupActs d fixed skip op dif cif) u.tree := by
  obtain ⟨skip, first⟩ := genLink_emits named linked
  obtain rfl := genLink_file linked
  refine ⟨skip, ?_⟩
  rw [setupActs, List.append_assoc]
  exact first.append (afterLink_emits t a u rest)

theorem iface_emits (named : cif.isNull = false → ifaceName cif = ifaceName dif)
    (returned : netdagGenIface d dif cif s = (.ok a, t)) : ∃ skip,
      Performs d s.tree (ifaceActs d (isFixed s.kernel (ifaceName dif)) skip dif cif) t.tree := by
  obtain ⟨result, u, linked, rest⟩ := bind_ok.mp returned
  obtain ⟨_, _, same, linked⟩ := bind_ok.mp linked
  obtain ⟨rfl, rfl⟩ := read_ok.mp same
  unfold ifaceActs
  split at linked
  · rename_i deleted
    obtain ⟨_, v, gone, last⟩ := bind_ok.mp linked
    obtain ⟨rfl, rfl⟩ := pure_ok.mp last
    obtain ⟨_, rfl⟩ := pure_ok.mp rest
    simp only [if_pos deleted]
    exact ⟨false, ifaceDel_emits _ s _ v gone⟩
  · rename_i kept
    simp only [if_neg kept]
    obtain ⟨must, v, decided, linked⟩ := bind_ok.mp linked
    have configured (yes : must = true) := mustDel_not_null (yes ▸ decided)
    obtain ⟨which, rfl⟩ := mustDel_ok decided
    simp only [← which]
    cases must with
    | true =>
      obtain ⟨_, w, gone, again⟩ := bind_ok.mp linked
      obtain ⟨ip, x, made, last⟩ := bind_ok.mp again
      obtain ⟨rfl, rfl⟩ := pure_ok.mp last
      obtain ⟨skip, set⟩ := setup_emits (fun _ => rfl) made rest
      exact ⟨skip, (ifaceDel_emits _ s _ w gone).append set⟩
    | false =>
      obtain ⟨ip, x, made, last⟩ := bind_ok.mp linked
      obtain ⟨rfl, rfl⟩ := pure_ok.mp last
      exact setup_emits named made rest

def SamePhys (s t : GenState) : Prop :=
  ∀ ifname, t.kernel.ifaceIsPhys ifname = s.kernel.ifaceIsPhys ifname

theorem addrFlush_phys (k : Kernel) (family : Family) (flushed ifname : String) :
    (k.addrFlush family flushed).ifaceIsPhys ifname = k.ifaceIsPhys ifname := by
  have plain (l : Link) : (if l.name = flushed then l.flush family else l).name = l.name ∧
      (if l.name = flushed then l.flush family else l).kind = l.kind := by
    split
    · cases family with
      | ipv4 => exact ⟨rfl, rfl⟩
      | ipv6 => exact ⟨rfl, rfl⟩
    · exact ⟨rfl, rfl⟩
  simp only [Kernel.ifaceIsPhys, Kernel.find, Kernel.addrFlush, List.find?_map, Function.comp_def, plain]
  cases k.links.find? fun l => l.name = ifname with
  | none => rfl
  | some l => simp only [Option.map_some, plain]

theorem physRules : FlushRules SamePhys where
  trans _ _ _ first second := fun ifname => (second ifname).trans (first ifname)
  same same := fun ifname => by rw [show _ = _ from same]
  flush := fun ifname => addrFlush_phys _ _ _ ifname

/-- What was found to be physical stays so while scripts are generated. -/
theorem SamePhys.fixed (same : SamePhys s t) (ifname : String) :
    isFixed t.kernel ifname = isFixed s.kernel ifname := by rw [isFixed, isFixed, same]

theorem ifaces_emits (d : Handle) (k : Kernel) (cifs : Ptr) (difs : List Ptr)
    (same : ∀ ifname, isFixed s.kernel ifname = isFixed k ifname)
    (returned : forEach difs (fun dif => netdagGenIface d dif (findCif cifs dif)) s = (.ok a, t)) :
    ∃ plan : Plan, plan.map Prod.fst = difs ∧ Performs d s.tree (planActs d k cifs plan) t.tree := by
  induction difs generalizing s with
  | nil =>
    obtain ⟨_, rfl⟩ := pure_ok.mp returned
    exact ⟨[], rfl, .nil⟩
  | cons dif rest ih =>
    obtain ⟨_, u, here, later⟩ := bind_ok.mp returned
    obtain ⟨skip, first⟩ := iface_emits (findCif_name cifs dif) here
    have phys := (physRules.iface d cifs dif).apply here
    obtain ⟨plan, all, second⟩ := ih (fun ifname => (phys.fixed ifname).trans (same ifname)) later
    refine ⟨(dif, skip) :: plan, by rw [List.map_cons, all], ?_⟩
    rw [same] at first
    exact first.append second

theorem generate_emits (returned : generate d cfg diff s = (.ok a, t)) :
    ∃ plan : Plan, plan.map Prod.fst = lyxListForEach (interfacesOf diff) "interface" ∧
      Performs d s.tree (nodeActs (interfacesOf cfg) (interfacesOf diff) ++
        planActs d s.kernel (interfacesOf cfg) plan) t.tree := by
  obtain ⟨_, u, init, rest⟩ := bind_ok.mp returned
  have nodes : Emits d (netdagInit d (interfacesOf cfg) (interfacesOf diff))
      (nodeActs (interfacesOf cfg) (interfacesOf diff)) := by
    unfold netdagInit
    refine ((Emits.forEach _ fun iface _ => addNode_emits (ifaceName iface)).bind fun _ =>
      Emits.forEach _ fun iface _ => addNode_emits (ifaceName iface)).congr ?_
    rw [nodeActs, List.map_append, List.map_eq_flatMap, List.map_eq_flatMap]
  have kernel := (init_kernel d _ _).apply init
  obtain ⟨plan, all, made⟩ := ifaces_emits d s.kernel _ _
    (fun ifname => by rw [show u.kernel = s.kernel from kernel]) rest
  exact ⟨plan, all, (nodes _ _ _ init).append made⟩

end Netdag
