import InfixOS.Netdag.Share

/-! The link scripts of a transaction. Each of its interfaces has one that sets it
up, one that takes it down, or both, and what they hold is a list of pieces. -/
namespace Netdag
open Dagger Lyx Posix Posix.FileTree Yang

def pieceFor (side : Side) (v : String) (script : Nat × String) : Act → Option Piece
  | .print side' v' script' piece => if side' = side ∧ v' = v ∧ script' = script then some piece else none
  | _ => none

/-- The pieces that a list of requests prints into one script. -/
def printed (side : Side) (v : String) (script : Nat × String) (acts : List Act) : List Piece :=
  acts.filterMap (pieceFor side v script)

section
variable {side : Side} {v : String} {script : Nat × String} {acts more : List Act}

@[simp] theorem printed_nil : printed side v script [] = [] := rfl

@[simp] theorem printed_cons (act : Act) :
    printed side v script (act :: acts) = (pieceFor side v script act).toList ++ printed side v script acts := by
  rw [printed, List.filterMap_cons]
  cases pieceFor side v script act with
  | none => rfl
  | some piece => rfl

@[simp] theorem printed_append :
    printed side v script (acts ++ more) = printed side v script acts ++ printed side v script more :=
  List.filterMap_append

@[simp] theorem printed_ite {p : Prop} [Decidable p] : printed side v script (if p then acts else more) =
    if p then printed side v script acts else printed side v script more := by
  split
  · rfl
  · rfl

theorem printed_own (pieces : List Piece) :
    printed side v script (pieces.map (.print side v script)) = pieces := by
  induction pieces with
  | nil => rfl
  | cons piece rest ih => simp [pieceFor, ih]

@[simp] theorem printed_lines (ifname : String) (pieces : List Piece) :
    printed .init ifname (50, "init.ip") (ipLines ifname pieces) = pieces := printed_own pieces

/-- Without being opened again a script only grows. -/
theorem followed_unopened (unopened : .fopen side v script ∉ acts) (held : Option (List Piece)) :
    acts.foldl (followed side v script) held = held.map (· ++ printed side v script acts) := by
  induction acts generalizing held with
  | nil => simp
  | cons act rest ih =>
    rw [List.mem_cons, not_or] at unopened
    rw [List.foldl_cons, ih unopened.2]
    cases act with
    | fopen side' v' script' =>
      have other : ¬(side' = side ∧ v' = v ∧ script' = script) := by
        rintro ⟨rfl, rfl, rfl⟩
        exact unopened.1 rfl
      simp [followed, other, pieceFor]
    | print side' v' script' piece =>
      by_cases own : side' = side ∧ v' = v ∧ script' = script
      · cases held with
        | none => simp [followed]
        | some pieces => simp [followed, own, pieceFor]
      · simp [followed, own, pieceFor]
    | node w => simp [followed, pieceFor]
    | dep a b => simp [followed, pieceFor]
    | skip w => simp [followed, pieceFor]
    | test w answer => simp [followed, pieceFor]

theorem content_opened (before : List Act) (unopened : .fopen side v script ∉ acts) :
    content side v script (before ++ .fopen side v script :: acts) = some (printed side v script acts) := by
  rw [content, List.foldl_append, List.foldl_cons, followed_unopened unopened]
  simp [followed]

end

/-- The script a request is about. -/
def Act.file : Act → Option (Side × String × Nat × String)
  | .fopen side v script | .print side v script _ => some (side, v, script)
  | _ => none

theorem followed_silent {acts : List Act} (silent : ∀ act ∈ acts, act.file ≠ some (side, v, script)) (held : Option (List Piece)) :
    acts.foldl (followed side v script) held = held := by
  induction acts with
  | nil => rfl
  | cons act rest ih =>
    rw [List.forall_mem_cons] at silent
    have unchanged : followed side v script held act = held := by
      cases act with
      | fopen side' v' script' =>
        simp only [Act.file, ne_eq, Option.some.injEq, Prod.mk.injEq] at silent
        rw [followed, if_neg silent.1]
      | print side' v' script' piece =>
        simp only [Act.file, ne_eq, Option.some.injEq, Prod.mk.injEq] at silent
        rw [followed, if_neg silent.1]
      | node w => rfl
      | dep a b => rfl
      | skip w => rfl
      | test w answer => rfl
    rw [List.foldl_cons, unchanged]
    exact ih silent.2

/-- The scripts of an interface are written by its own share, apart from the one
that reloads services. -/
theorem Share.owner {fine : String → Prop} (share : Share ifname fine (Opening ifname) act)
    (file : act.file = some (side, v, script)) (other : script ≠ (90, "reload.sh")) : v = ifname := by
  cases share with
  | test answer => simp [Act.file] at file
  | dep ref => simp [Act.file] at file
  | skip ref => simp [Act.file] at file
  | ip piece => simp_all [Act.file]
  | openLater listed => simp_all [Act.file]
  | later listed piece => simp_all [Act.file]
  | openDown => simp_all [Act.file]
  | down piece => simp_all [Act.file]
  | openReload => simp_all [Act.file]
  | reload piece => simp_all [Act.file]
  | own more => cases more <;> simp_all [Act.file]

/-- The requests for one interface of a plan. -/
def stepActs (d : Handle) (k : Kernel) (cifs : Ptr) (step : Ptr × Bool) : List Act :=
  ifaceActs d (isFixed k (ifaceName step.1)) step.2 step.1 (findCif cifs step.1)

theorem planActs_append (d : Handle) (k : Kernel) (cifs : Ptr) (before after : Plan) (step : Ptr × Bool) :
    planActs d k cifs (before ++ step :: after) =
      planActs d k cifs before ++ stepActs d k cifs step ++ planActs d k cifs after := by
  simp [planActs, stepActs]

theorem planActs_silent (names : NamesIn fine cfg diff) (other : script ≠ (90, "reload.sh"))
    (missing : v ∉ plan.map fun step => ifaceName step.1) :
    ∀ act ∈ planActs d k (interfacesOf cfg) plan, act.file ≠ some (side, v, script) := by
  intro act member file
  obtain ⟨step, listed, share⟩ := planActs_share names member
  rw [share.owner file other] at missing
  exact missing (List.mem_map_of_mem listed)

/-- An interface that is not in the plan has no script. -/
theorem content_unplanned (names : NamesIn fine cfg diff) (other : script ≠ (90, "reload.sh"))
    (missing : v ∉ plan.map fun step => ifaceName step.1) :
    content side v script (planActs d k (interfacesOf cfg) plan) = none :=
  followed_silent (planActs_silent names other missing) none

/-- The scripts of an interface of the plan are those its own share writes. -/
theorem content_planned (names : NamesIn fine cfg diff) (other : script ≠ (90, "reload.sh"))
    (unique : (plan.map fun step => ifaceName step.1).Nodup) (planned : step ∈ plan) :
    content side (ifaceName step.1) script (planActs d k (interfacesOf cfg) plan) =
      content side (ifaceName step.1) script (stepActs d k (interfacesOf cfg) step) := by
  obtain ⟨before, after, rfl⟩ := List.append_of_mem planned
  rw [List.map_append, List.map_cons, List.nodup_append, List.nodup_cons] at unique
  have early : ifaceName step.1 ∉ before.map fun step => ifaceName step.1 :=
    fun member => unique.2.2 _ member _ List.mem_cons_self rfl
  rw [planActs_append, content, List.foldl_append, List.foldl_append,
    followed_silent (planActs_silent names other early),
    followed_silent (planActs_silent names other unique.2.1.1)]
  rfl

/-- The line that adds a VLAN, if its tag is known. -/
def vlanLine (dif cif : Ptr) : List Piece :=
  let otag := outerTag (if dif.isNull then cif else dif)
  if !otag.isNull then vlanPieces (ifaceName cif) (lydxGetCattr cif "parent-interface") otag else []

def addPieces (skip : Bool) (cif : Ptr) : List Piece :=
  if hasType cif typeBridge then [.linkAddBridge (ifaceName cif) (netdagGetBridgeFwdMask cif)]
  else if hasType cif typeVeth then if skip then [] else [.linkAddVeth (ifaceName cif) (vethPeer cif)]
  else if hasType cif typeVlan then vlanLine .null cif
  else []

def setPieces (dif cif : Ptr) : List Piece :=
  if hasType cif typeBridge then [.linkSetBridge (ifaceName cif) (netdagGetBridgeFwdMask cif)]
  else if hasType cif typeVlan then vlanLine dif cif
  else []

def portPieces (cif : Ptr) : List Piece :=
  if !(bridgePort cif).isNull then [.master (lydxGetCattr (bridgePort cif) "bridge")] else []

def upPieces (dif cif : Ptr) : List Piece :=
  if lydxGetCattr cif "enabled" = none || lydxGetCattr cif "enabled" = some "true" then
    [.linkSetUp (ifaceName dif)] else []

/-- The link script of an interface that is there afterwards. -/
def setupPieces (fixed skip : Bool) (op : Operation) (dif cif : Ptr) : List Piece :=
  (if !fixed && op = .create then addPieces skip cif else []) ++ [.linkSetDown (ifaceName dif)] ++
    ipv6AutoconfPieces cif dif ++ portPieces cif ++ [.newline] ++
    (if !fixed && op ≠ .create then setPieces dif cif else []) ++
    (addressPieces .ipv4 cif dif ++ addressPieces .ipv6 cif dif) ++ upPieces dif cif

section
variable {d : Handle} {dif cif : Ptr}

theorem printed_vlan (dif cif : Ptr) :
    printed .init (ifaceName cif) (50, "init.ip") (vlanActs dif cif) = vlanLine dif cif := by
  simp [vlanActs, vlanLine, pieceFor]

theorem printed_add (skip : Bool) (named : cif.isNull = false → ifaceName cif = ifname) :
    printed .init ifname (50, "init.ip") (afspecAddActs skip cif) = addPieces skip cif := by
  unfold afspecAddActs addPieces
  by_cases present : cif.isNull
  · have none (iftype : String) : hasType cif iftype = false := by
      rw [← Bool.not_eq_true, hasType_iff]
      intro type
      simp [cattr_not_null type] at present
    simp [none]
  · obtain rfl := named (by simpa using present)
    simp only [printed_ite, printed_lines, printed_vlan, printed_nil]
    cases skip with
    | true => simp [vethActs, pieceFor]
    | false => simp [vethActs, pieceFor]

theorem printed_set (named : cif.isNull = false → ifaceName cif = ifname) :
    printed .init ifname (50, "init.ip") (afspecSetActs dif cif) = setPieces dif cif := by
  unfold afspecSetActs setPieces
  by_cases present : cif.isNull
  · have none (iftype : String) : hasType cif iftype = false := by
      rw [← Bool.not_eq_true, hasType_iff]
      intro type
      simp [cattr_not_null type] at present
    simp [none]
  · obtain rfl := named (by simpa using present)
    simp only [printed_ite, printed_lines, printed_vlan, printed_nil]

theorem printed_bridge (named : cif.isNull = false → ifaceName cif = ifname) :
    printed .init ifname (50, "init.ip") (bridgeActs cif) = portPieces cif := by
  unfold bridgeActs portPieces
  by_cases port : (bridgePort cif).isNull
  · simp [port]
  · obtain rfl := named (descendant_not_null (by simpa [bridgePort] using port))
    simp [port, pieceFor]

theorem printed_autoconf (d : Handle) (cif dif : Ptr) (ifname : String) :
    printed .init ifname (50, "init.ip") (ipv4AutoconfActs d cif dif) = [] := by
  unfold ipv4AutoconfActs
  simp only
  split
  · rfl
  · simp [pieceFor]
  · simp [pieceFor, reloadActs]

theorem printed_sysctl (dif : Ptr) (ifname : String) :
    printed .init ifname (50, "init.ip") (sysctlActs dif) = [] := by
  simp [sysctlActs, forwardingActs, pieceFor]

/-- What the link script holds of an interface that is set up. -/
theorem printed_setup (fixed skip : Bool) (op : Operation)
    (named : cif.isNull = false → ifaceName cif = ifaceName dif) :
    printed .init (ifaceName dif) (50, "init.ip") (setupActs d fixed skip op dif cif) =
      setupPieces fixed skip op dif cif := by
  simp only [setupActs, linkActs, adminActs, setupPieces, upPieces, printed_append, printed_cons, printed_ite,
    printed_nil, printed_lines, printed_add skip named, printed_set named, printed_bridge named,
    printed_autoconf, printed_sysctl, pieceFor, Option.toList_none, List.nil_append, List.append_nil,
    List.append_assoc]

/-- After its opening the link script is not opened again, and setting up does not
touch the script that deletes. -/
theorem Share.quiet {fine : String → Prop} (share : Share ifname fine (fun _ => False) act) :
    act ≠ .fopen .init v (50, "init.ip") ∧ act.file ≠ some (.exit, v, 50, "exit.ip") := by
  cases share with
  | own more => exact more.elim
  | openLater listed =>
    simp only [laterScripts, List.mem_cons, List.not_mem_nil, or_false] at listed
    rcases listed with rfl | rfl
    · simp [Act.file]
    · simp [Act.file]
  | later listed piece => simp [Act.file]
  | test answer => simp [Act.file]
  | dep ref => simp [Act.file]
  | skip ref => simp [Act.file]
  | ip piece => simp [Act.file]
  | openDown => simp [Act.file]
  | down piece => simp [Act.file]
  | openReload => simp [Act.file]
  | reload piece => simp [Act.file]

theorem content_setup (before : List Act) (fixed skip : Bool) (op : Operation)
    (named : cif.isNull = false → ifaceName cif = ifaceName dif) (refs : Refs fine cif) :
    content .init (ifaceName dif) (50, "init.ip") (before ++ setupActs d fixed skip op dif cif) =
      some (setupPieces fixed skip op dif cif) ∧
    content .exit v (50, "exit.ip") (before ++ setupActs d fixed skip op dif cif) =
      content .exit v (50, "exit.ip") before := by
  obtain ⟨rest, opened, shares⟩ := Shares.setup (d := d) fixed skip op named refs fun _ => False
  have pieces := printed_setup (d := d) fixed skip op named
  rw [opened] at pieces ⊢
  constructor
  · rw [content_opened _ fun member => (shares _ member).quiet.1 rfl, ← pieces]
    simp [pieceFor]
  · rw [content, List.foldl_append]
    refine followed_silent (List.forall_mem_cons.mpr ⟨by simp [Act.file], ?_⟩) _
    exact fun act member => (shares act member).quiet.2

/-- The link script of an interface that is in the diff and not deleted. -/
def initPieces (fixed skip : Bool) (dif cif : Ptr) : List Piece :=
  if recreated dif cif then setupPieces fixed skip .create (markCreated cif) (markCreated cif)
  else setupPieces fixed skip (lydxGetOp dif) dif cif

theorem content_init (alive : lydxGetOp dif ≠ .delete) (fixed skip : Bool)
    (named : cif.isNull = false → ifaceName cif = ifaceName dif) (refs : Refs fine cif) :
    content .init (ifaceName dif) (50, "init.ip") (ifaceActs d fixed skip dif cif) =
      some (initPieces fixed skip dif cif) := by
  unfold ifaceActs initPieces
  rw [if_neg alive]
  split
  · rename_i again
    have same : ifaceName (markCreated cif) = ifaceName dif := by
      refine (markCreated_name cif).trans (named ?_)
      rcases recreated_type again with vlan | veth
      · exact cattr_not_null vlan
      · exact cattr_not_null veth
    have own (_ : (markCreated cif).isNull = false) : ifaceName (markCreated cif) = ifaceName (markCreated cif) := rfl
    have set := content_setup (d := d) (v := "") (delActs (ifaceName dif) fixed) fixed skip .create own refs.created
    rw [same] at set
    exact set.1
  · exact (content_setup (v := "") [] fixed skip (lydxGetOp dif) named refs).1

/-- The lines that take an interface down. -/
def delPieces (ifname : String) (fixed : Bool) : List Piece :=
  if fixed then [.exitDown ifname, .exitFlush ifname] else [.linkDel ifname]

/-- The interface is deleted, for good or to be created again. -/
def dropped (dif cif : Ptr) : Bool := lydxGetOp dif = .delete || recreated dif cif

theorem content_del (ifname : String) (fixed : Bool) :
    content .exit ifname (50, "exit.ip") (delActs ifname fixed) = some (delPieces ifname fixed) := by
  rw [delActs, ← List.nil_append (_ :: _), content_opened _ (by simp), printed_own]
  rfl

theorem content_exit (fixed skip : Bool) (named : cif.isNull = false → ifaceName cif = ifaceName dif)
    (refs : Refs fine cif) : content .exit (ifaceName dif) (50, "exit.ip") (ifaceActs d fixed skip dif cif) =
      if dropped dif cif then some (delPieces (ifaceName dif) fixed) else none := by
  unfold ifaceActs dropped
  by_cases gone : lydxGetOp dif = .delete
  · simp [gone, content_del]
  · by_cases again : recreated dif cif
    · have own (_ : (markCreated cif).isNull = false) : ifaceName (markCreated cif) = ifaceName (markCreated cif) := rfl
      have set := content_setup (d := d) (v := ifaceName dif) (delActs (ifaceName dif) fixed) fixed skip .create
        own refs.created
      simp only [gone, again, if_true, if_false, decide_false, Bool.false_or, set.2, content_del]
    · have set := (content_setup (d := d) (v := ifaceName dif) [] fixed skip (lydxGetOp dif) named refs).2
      simp only [List.nil_append] at set
      simp only [gone, again, if_false, decide_false, Bool.or_false, Bool.false_eq_true, set]
      rfl

end

/-- A script after a run of the generator that found none. -/
theorem Generated.script_file (made : Generated d k kernel cfg diff plan t u v) (small : script.1 ≤ 99)
    (fresh : t.get (scriptOf k side w script) = none) :
    v.get (scriptOf k side w script) =
      (content side w script (planActs d kernel (interfacesOf cfg) plan)).map fun pieces =>
        .file (interpreter script.2 ++ pieces.map .out) true := by
  have start : Holds k t side w script none := fresh
  have noded := made.nodes.holds made.nodesReady small start
  rw [followed_silent] at noded
  · exact made.made.holds made.ready small noded
  · intro act member
    obtain ⟨iface, _, rfl⟩ := mem_nodeActs.mp member
    simp [Act.file]

def Item.piece : Item Piece → Option Piece
  | .out piece => some piece
  | _ => none

/-- What the generator has printed into a script. -/
def scriptPieces (t : Base Piece) (q : Path) : List Piece :=
  match t.get q with
  | some (.file data _) => data.filterMap Item.piece
  | _ => []

theorem Generated.script_pieces (made : Generated d k kernel cfg diff plan t u v) (small : script.1 ≤ 99)
    (fresh : t.get (scriptOf k side w script) = none) :
    scriptPieces v (scriptOf k side w script) =
      (content side w script (planActs d kernel (interfacesOf cfg) plan)).getD [] := by
  rw [scriptPieces, made.script_file small fresh]
  cases content side w script (planActs d kernel (interfacesOf cfg) plan) with
  | none => rfl
  | some pieces =>
    have first : (interpreter script.2 : List (Item Piece)).filterMap Item.piece = [] := by
      unfold interpreter
      split <;> rfl
    simp [first, List.filterMap_map, Function.comp_def, Item.piece]

end Netdag
