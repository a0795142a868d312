import InfixOS.Netdag.Readdressing

/-! What the link scripts of a transaction do to the devices of the kernel. Each
script is a batch of `ip` of its own. A line that starts with the name of a device is
about that device to its end, and a batch stops at the first line that fails. -/
namespace Netdag
open Core Dagger Keyed Lyx Posix Yang

/-- A device, with what the scripts can set. -/
structure Device where
  kind : LinkKind
  proto : String
  vid : Option String
  master : Option String
  addrgenmode : String
  inet : Finset String
  inet6 : Finset String

/-- A device as the kernel makes it. -/
def Device.new (kind : LinkKind) : Device := ⟨kind, "802.1Q", none, none, "eui64", ∅, ∅⟩

def Device.addresses (d : Device) : Family → Finset String
  | .ipv4 => d.inet
  | .ipv6 => d.inet6

/-- The settings of a line other than addresses. -/
def Device.set (d : Device) : Piece → Device
  | .addrgenmode mode => { d with addrgenmode := mode }
  | .master bridge => { d with master := some (str bridge) }
  | .vlanProto proto => { d with proto := proto }
  | .vlanId id => { d with vid := some (str id) }
  | _ => d

/-- What a piece does to the device `x` that its line is about. -/
def Device.adjust (d : Device) (x : String) (piece : Piece) : Option Device :=
  (runAll d.inet (piece.edits .ipv4 x)).bind fun inet =>
    (runAll d.inet6 (piece.edits .ipv6 x)).map fun inet6 => { d.set piece with inet := inet, inet6 := inet6 }

open Classical in
/-- A master that goes releases its ports. -/
noncomputable def released (goes : String → Prop) : Option String → Option String
  | none => none
  | some b => if goes b then none else some b

abbrev Devices := String → Option Device

namespace Devices

def kinds (devices : Devices) : Links := fun x => (devices x).map Device.kind

open Classical in
/-- The kernel deletes a device with all that stands on it, and releases the ports of
a bridge that goes. -/
noncomputable def del (devices : Devices) (x : String) : Devices := fun z =>
  if Vanishes devices.kinds x z then none else (devices z).map fun d =>
    { d with master := released (Vanishes devices.kinds x) d.master }

def adjust (devices : Devices) (x : String) (piece : Piece) : Option Devices :=
  (devices x).bind fun d => (d.adjust x piece).map fun d' => Function.update devices x (some d')

def make (devices : Devices) (x : String) (kind : LinkKind) : Devices :=
  Function.update devices x (some (.new kind))

/-- A piece of a line about the device `x`. -/
noncomputable def exec (devices : Devices) (x : String) : Piece → Option Devices
  | .linkDel y => if devices y = none then none else some (devices.del y)
  | .linkAddVeth y peer =>
    if devices y = none ∧ devices (str peer) = none ∧ y ≠ str peer then
      some ((devices.make y (.veth (str peer))).make (str peer) (.veth y))
    else none
  | .linkAddVlan y parent =>
    if devices y = none ∧ devices (str parent) ≠ none then some (devices.make y (.vlan (str parent))) else none
  | .linkAddBridge y _ => if devices y = none then some (devices.make y .bridge) else none
  | .master bridge => if devices.kinds (str bridge) = some .bridge then devices.adjust x (.master bridge) else none
  | .initctlReload => some devices
  | .zeroconfEnable _ => some devices
  | .zeroconfDisable _ => some devices
  | .forwarding _ _ _ => some devices
  | .newline => some devices
  | piece => devices.adjust x piece

end Devices

/-- The device that a line is about, where its text says so. -/
def Piece.subject : Piece → Option String
  | .addressDelete _ _ ifname | .addressAdd _ _ _ ifname | .linkAddVeth ifname _ | .linkAddVlan ifname _
  | .linkAddBridge ifname _ | .linkSetBridge ifname _ | .linkSetDown ifname | .linkSetUp ifname | .exitDown ifname
  | .exitFlush ifname | .linkDel ifname => some ifname
  | _ => none

namespace Devices

/-- The rest of a batch, while its current line is about the device `x`. -/
noncomputable def run (devices : Devices) (x : String) : List Piece → Option Devices
  | [] => some devices
  | piece :: rest =>
    let y := piece.subject.getD x
    (devices.exec y piece).bind fun after => after.run y rest

/-- One batch after the other. -/
noncomputable def runScripts (devices : Devices) : List (List Piece) → Option Devices
  | [] => some devices
  | script :: rest => (devices.run "" script).bind fun after => after.runScripts rest

theorem runScripts_append {devices : Devices} : devices.runScripts (first ++ second) =
    (devices.runScripts first).bind fun after => after.runScripts second := by
  induction first generalizing devices with
  | nil => rfl
  | cons script rest ih =>
    rw [List.cons_append, runScripts, runScripts]
    cases devices.run "" script with
    | none => rfl
    | some after => exact ih

end Devices

/-- The kind of device that a piece makes of `x`. -/
def Piece.kindOf (x : String) : Piece → Option LinkKind
  | .linkAddVeth y peer => if x = str peer then some (.veth y) else if x = y then some (.veth (str peer)) else none
  | .linkAddVlan y parent => if x = y then some (.vlan (str parent)) else none
  | .linkAddBridge y _ => if x = y then some .bridge else none
  | _ => none

/-- A piece that sets something on a device that is there. -/
def Piece.adjusts : Piece → Bool
  | .addressDelete _ _ _ | .addressAdd _ _ _ _ | .addrgenmode _ | .vlanProto _ | .vlanId _ | .linkSetBridge _ _
  | .linkSetDown _ | .master _ | .linkSetUp _ | .exitDown _ | .exitFlush _ => true
  | _ => false

/-- What a piece of a line about `y` does to the device `x`, deletions apart. -/
inductive Changes (x y : String) (piece : Piece) : Option Device → Option Device → Prop
  | same (unmade : piece.kindOf x = none) (unset : y = x → piece.adjusts = false) : Changes x y piece held held
  | made (makes : piece.kindOf x = some kind) : Changes x y piece none (some (.new kind))
  | adjusted (own : y = x) (adjusts : piece.adjusts = true) (set : d.adjust x piece = some d') :
      Changes x y piece (some d) (some d')

section Exec
variable {devices after : Devices} {x y : String} {piece : Piece}

theorem Devices.adjust_changes (adjusts : piece.adjusts = true) (ran : devices.adjust y piece = some after) :
    Changes x y piece (devices x) (after x) := by
  obtain ⟨d, found, rest⟩ := Option.bind_eq_some_iff.mp ran
  obtain ⟨d', set, rfl⟩ := Option.map_eq_some_iff.mp rest
  by_cases own : x = y
  · subst own
    rw [found, Function.update_self]
    exact .adjusted rfl adjusts set
  · rw [Function.update_of_ne own]
    refine .same ?_ fun same => absurd same.symm own
    cases piece <;> simp_all [Piece.adjusts, Piece.kindOf]

/-- What a piece does to one device. -/
theorem Devices.exec_changes (kept : ∀ z, piece ≠ .linkDel z) (ran : devices.exec y piece = some after) :
    Changes x y piece (devices x) (after x) := by
  cases piece with
  | linkDel z => exact absurd rfl (kept z)
  | linkAddVeth z peer =>
    obtain ⟨⟨own, other, _⟩, result⟩ := Option.ite_none_right_eq_some.mp ran
    obtain rfl := Option.some.inj result
    by_cases last : x = str peer
    · subst last
      rw [make, Function.update_self, other]
      exact .made (if_pos rfl)
    by_cases first : x = z
    · subst first
      rw [make, Function.update_of_ne last, make, Function.update_self, own]
      exact .made (by simp [Piece.kindOf, last])
    · rw [make, Function.update_of_ne last, make, Function.update_of_ne first]
      exact .same (by simp [Piece.kindOf, last, first]) fun _ => rfl
  | linkAddVlan z parent =>
    obtain ⟨⟨own, _⟩, result⟩ := Option.ite_none_right_eq_some.mp ran
    obtain rfl := Option.some.inj result
    by_cases first : x = z
    · subst first
      rw [make, Function.update_self, own]
      exact .made (if_pos rfl)
    · rw [make, Function.update_of_ne first]
      exact .same (if_neg first) fun _ => rfl
  | linkAddBridge z mask =>
    obtain ⟨own, result⟩ := Option.ite_none_right_eq_some.mp ran
    obtain rfl := Option.some.inj result
    by_cases first : x = z
    · subst first
      rw [make, Function.update_self, own]
      exact .made (if_pos rfl)
    · rw [make, Function.update_of_ne first]
      exact .same (if_neg first) fun _ => rfl
  | master bridge => exact adjust_changes rfl (Option.ite_none_right_eq_some.mp ran).2
  | initctlReload | zeroconfEnable | zeroconfDisable | forwarding | newline =>
    obtain rfl : devices = after := Option.some.inj ran
    exact .same rfl fun _ => rfl
  | addressDelete | addressAdd | addrgenmode | vlanProto | vlanId | linkSetBridge | linkSetDown | linkSetUp | exitDown
  | exitFlush => exact adjust_changes rfl ran

end Exec

/-- A batch about one device that deletes nothing. -/
structure OwnScript (v : String) (script : List Piece) : Prop where
  begins : ∀ piece ∈ script.head?, piece.subject = some v
  own : ∀ piece ∈ script, ∀ z ∈ piece.subject, z = v
  kept : ∀ piece ∈ script, ∀ z, piece ≠ .linkDel z

section Scripts
variable {devices after : Devices} {v x : String} {script pieces : List Piece}

theorem OwnScript.run_eq (own : OwnScript v script) : devices.run "" script = devices.run v script := by
  cases script with
  | nil => rfl
  | cons piece rest => simp [Devices.run, own.begins piece rfl]

theorem OwnScript.run_cons (own : ∀ z ∈ piece.subject, z = v) :
    devices.run v (piece :: rest) = (devices.exec v piece).bind fun mid => mid.run v rest := by
  have subject : piece.subject.getD v = v := by
    cases said : piece.subject with
    | none => rfl
    | some z => exact own z said
  simp only [Devices.run, subject]

/-- What every piece of a batch keeps about a device, the batch keeps. -/
theorem Devices.run_keeps {Q : Option Device → Prop} (own : ∀ piece ∈ pieces, ∀ z ∈ piece.subject, z = v)
    (kept : ∀ piece ∈ pieces, ∀ z, piece ≠ .linkDel z)
    (step : ∀ piece ∈ pieces, ∀ held held', Changes x v piece held held' → Q held → Q held')
    (ran : devices.run v pieces = some after) (start : Q (devices x)) : Q (after x) := by
  induction pieces generalizing devices with
  | nil => exact Option.some.inj ran ▸ start
  | cons piece rest ih =>
    obtain ⟨here, others⟩ := List.forall_mem_cons.mp own
    obtain ⟨keeps, keepsOthers⟩ := List.forall_mem_cons.mp kept
    obtain ⟨first, later⟩ := List.forall_mem_cons.mp step
    rw [OwnScript.run_cons here] at ran
    obtain ⟨mid, executed, ran⟩ := Option.bind_eq_some_iff.mp ran
    exact ih others keepsOthers later ran (first _ _ (exec_changes keeps executed) start)

theorem Devices.run_append_own {first second : List Piece} (own : ∀ piece ∈ first, ∀ z ∈ piece.subject, z = v) :
    devices.run v (first ++ second) = (devices.run v first).bind fun mid => mid.run v second := by
  induction first generalizing devices with
  | nil => rfl
  | cons piece rest ih =>
    obtain ⟨here, others⟩ := List.forall_mem_cons.mp own
    rw [List.cons_append, OwnScript.run_cons here, OwnScript.run_cons here]
    cases devices.exec v piece with
    | none => rfl
    | some mid => exact ih others

/-- The same for the batches of a list of interfaces. -/
theorem Devices.runScripts_keeps {Q : Option Device → Prop} {script : String → List Piece} {vs : List String}
    (ran : devices.runScripts (vs.map script) = some after) (start : Q (devices x))
    (step : ∀ v ∈ vs, ∀ devices after : Devices, devices.run "" (script v) = some after → Q (devices x) → Q (after x)) :
    Q (after x) := by
  induction vs generalizing devices with
  | nil => exact Option.some.inj ran ▸ start
  | cons v rest ih =>
    obtain ⟨here, later⟩ := List.forall_mem_cons.mp step
    obtain ⟨mid, first, ran⟩ := Option.bind_eq_some_iff.mp ran
    exact ih ran (here _ _ first start) later

end Scripts

/-- One of the things that a line can set on a device, with what a new device has. -/
structure Setting (α : Type) where
  get : Device → α
  gives : Piece → Option α
  initial : α
  new : ∀ kind, get (.new kind) = initial
  set : ∀ d piece, get (d.set piece) = (gives piece).getD (get d)
  apart : ∀ d inet inet6, get { d with inet := inet, inet6 := inet6 } = get d
  adjusts : ∀ piece, gives piece ≠ none → piece.adjusts = true

def masterSetting : Setting (Option String) where
  get := Device.master
  gives
    | .master bridge => some (some (str bridge))
    | _ => none
  initial := none
  new _ := rfl
  set d piece := by cases piece <;> rfl
  apart _ _ _ := rfl
  adjusts piece _ := by cases piece <;> simp_all [Piece.adjusts]

def modeSetting : Setting String where
  get := Device.addrgenmode
  gives
    | .addrgenmode mode => some mode
    | _ => none
  initial := "eui64"
  new _ := rfl
  set d piece := by cases piece <;> rfl
  apart _ _ _ := rfl
  adjusts piece _ := by cases piece <;> simp_all [Piece.adjusts]

namespace Setting
variable {α : Type} {setting : Setting α} {x v : String} {devices after : Devices} {bare held held' : Option Device} {piece : Piece}

theorem adjusted (set : d.adjust x piece = some d') : setting.get d' = (setting.gives piece).getD (setting.get d) := by
  obtain ⟨inet, _, rest⟩ := Option.bind_eq_some_iff.mp set
  obtain ⟨inet6, _, rfl⟩ := Option.map_eq_some_iff.mp rest
  rw [setting.apart, setting.set]

/-- What the device had when the scripts began, or what it has when it is made. -/
def first (setting : Setting α) (bare : Option Device) : α := (bare.map setting.get).getD setting.initial

/-- The device has not been set up. -/
structure Pending (setting : Setting α) (bare held : Option Device) : Prop where
  value : held = some d → setting.get d = setting.first bare
  stays : bare ≠ none → held ≠ none

theorem Pending.start (setting : Setting α) (bare : Option Device) : setting.Pending bare bare where
  value := by
    rintro d rfl
    rfl
  stays := id

theorem Pending.step (pending : setting.Pending bare held) (changes : Changes x v piece held held')
    (silent : v = x → setting.gives piece = none) : setting.Pending bare held' := by
  cases changes with
  | same => exact pending
  | made makes =>
    have missing : bare = none := by
      by_contra there
      exact pending.stays there rfl
    refine ⟨fun same => ?_, fun _ => by simp⟩
    rw [← Option.some.inj same, setting.new, missing]
    rfl
  | adjusted own _ set =>
    refine ⟨fun same => ?_, fun _ => by simp⟩
    rw [← Option.some.inj same, adjusted set, silent own]
    exact pending.value rfl

/-- The device is there with a value that stays. -/
def Settled (setting : Setting α) (value : α) (held : Option Device) : Prop := ∃ d, held = some d ∧ setting.get d = value

theorem Settled.step (settled : setting.Settled value held) (changes : Changes x v piece held held')
    (silent : v = x → ∀ a ∈ setting.gives piece, a = value) : setting.Settled value held' := by
  obtain ⟨d, rfl, has⟩ := settled
  cases changes with
  | same => exact ⟨d, rfl, has⟩
  | adjusted own _ set =>
    refine ⟨_, rfl, ?_⟩
    rw [adjusted set]
    cases gives : setting.gives piece with
    | none => exact has
    | some a => exact silent own a gives

theorem said (gives : setting.gives piece = some value) (changes : Changes x x piece held held') :
    setting.Settled value held' := by
  have adjusts := setting.adjusts piece (by simp [gives])
  cases changes with
  | same _ unset => simp [unset rfl] at adjusts
  | made makes => cases piece <;> simp_all [Piece.adjusts, Piece.kindOf]
  | adjusted _ _ set => exact ⟨_, rfl, by rw [adjusted set, gives]; rfl⟩

theorem present_step (changes : Changes x v piece held held') (present : held ≠ none) : held' ≠ none := by
  cases changes with
  | same => exact present
  | made => simp
  | adjusted => simp

theorem present_adjusted (adjusts : piece.adjusts = true) (changes : Changes x x piece held held') : held' ≠ none := by
  cases changes with
  | same _ unset => simp [unset rfl] at adjusts
  | made => simp
  | adjusted => simp

/-- The script of a device sets what it says, if anything. -/
theorem own_script (setting : Setting α) {script : List Piece} (own : OwnScript x script)
    (once : (script.filterMap setting.gives).length ≤ 1) (up : .linkSetDown x ∈ script)
    (ran : devices.run "" script = some after) (pending : setting.Pending bare (devices x)) :
    setting.Settled ((script.filterMap setting.gives).head?.getD (setting.first bare)) (after x) := by
  rw [own.run_eq] at ran
  cases said' : script.filterMap setting.gives with
  | nil =>
    have silent := List.filterMap_eq_nil_iff.mp said'
    have last := Devices.run_keeps own.own own.kept
      (fun piece member _ _ changes pending => Pending.step pending changes fun _ => silent piece member) ran pending
    obtain ⟨before, rest, rfl⟩ := List.append_of_mem up
    rw [Devices.run_append_own fun piece member => own.own piece (List.mem_append_left _ member)] at ran
    obtain ⟨mid, _, ran⟩ := Option.bind_eq_some_iff.mp ran
    rw [OwnScript.run_cons (own.own _ (by simp))] at ran
    obtain ⟨next, executed, ran⟩ := Option.bind_eq_some_iff.mp ran
    have there : next x ≠ none := present_adjusted rfl (Devices.exec_changes (by simp) executed)
    have present : after x ≠ none := Devices.run_keeps
      (fun piece member => own.own piece (List.mem_append_right _ (List.mem_cons_of_mem _ member)))
      (fun piece member => own.kept piece (List.mem_append_right _ (List.mem_cons_of_mem _ member)))
      (fun _ _ _ _ changes => present_step changes) ran there
    obtain ⟨d, found⟩ := Option.ne_none_iff_exists'.mp present
    exact ⟨d, found, last.value found⟩
  | cons value more =>
    obtain ⟨before, piece, rest, rfl, _, gives, later⟩ := List.filterMap_eq_cons_iff.mp said'
    obtain rfl : more = [] := by simpa [said'] using once
    have silent := List.filterMap_eq_nil_iff.mp later
    rw [Devices.run_append_own fun piece member => own.own piece (List.mem_append_left _ member)] at ran
    obtain ⟨mid, _, ran⟩ := Option.bind_eq_some_iff.mp ran
    rw [OwnScript.run_cons (own.own piece (by simp))] at ran
    obtain ⟨next, executed, ran⟩ := Option.bind_eq_some_iff.mp ran
    refine Devices.run_keeps
      (fun piece member => own.own piece (List.mem_append_right _ (List.mem_cons_of_mem _ member)))
      (fun piece member => own.kept piece (List.mem_append_right _ (List.mem_cons_of_mem _ member)))
      (fun piece member _ _ changes settled => Settled.step settled changes fun _ a gives => ?_) ran
      (said gives (Devices.exec_changes (own.kept _ (by simp)) executed))
    simp [silent piece member] at gives

/-- After the scripts of all interfaces a device has what its own script has set; if
that sets nothing, what it had, or what a new device has. -/
theorem after_scripts (setting : Setting α) {script : String → List Piece} {up : List String}
    (own : ∀ v ∈ up, OwnScript v (script v)) (listed : x ∈ up)
    (once : ((script x).filterMap setting.gives).length ≤ 1) (down : .linkSetDown x ∈ script x)
    (ran : devices.runScripts (up.map script) = some after) :
    setting.Settled (((script x).filterMap setting.gives).head?.getD (setting.first (devices x))) (after x) := by
  obtain ⟨early, late, rfl, unlisted⟩ := List.eq_append_cons_of_mem listed
  rw [List.map_append, Devices.runScripts_append] at ran
  obtain ⟨mid, first, ran⟩ := Option.bind_eq_some_iff.mp ran
  obtain ⟨next, second, ran⟩ := Option.bind_eq_some_iff.mp ran
  have pending : setting.Pending (devices x) (mid x) := by
    refine Devices.runScripts_keeps first (Pending.start setting _) fun v member devices after ran pending => ?_
    have script := own v (List.mem_append_left _ member)
    rw [script.run_eq] at ran
    refine Devices.run_keeps script.own script.kept
      (fun piece _ _ _ changes pending => Pending.step pending changes fun same => ?_) ran pending
    exact absurd (same ▸ member) unlisted
  refine Devices.runScripts_keeps ran (own_script setting (own x listed) once down second pending)
    fun v member devices after ran settled => ?_
  have script' := own v (List.mem_append_right _ (List.mem_cons_of_mem _ member))
  rw [script'.run_eq] at ran
  refine Devices.run_keeps script'.own script'.kept
    (fun piece member _ _ changes settled => Settled.step settled changes ?_) ran settled
  rintro rfl a gives
  have inside : a ∈ (script v).filterMap setting.gives := List.mem_filterMap.mpr ⟨piece, member, gives⟩
  generalize (script v).filterMap setting.gives = values at once inside
  match values, once, inside with
  | [value], _, inside => simpa using inside

end Setting

theorem Remaining.vanishes_iff (remaining : Remaining initial gone links) (present : links y ≠ none)
    (stays : ∀ z ∈ gone, ¬Vanishes initial z b) : Vanishes links y b ↔ Vanishes initial y b := by
  constructor
  · exact fun vanishes => vanishes.mono fun _ _ => remaining.sub
  · intro vanishes
    refine (remaining.reaches present vanishes).resolve_right fun ⟨was, missing⟩ => was ?_
    rw [← remaining.kept stays, missing]

/-- The devices after those in `gone` have been deleted one after the other. What else
they have is as it was, apart from masters that are gone and from addresses. -/
structure Left (initial : Devices) (gone : List String) (devices : Devices) : Prop where
  remaining : Remaining initial.kinds gone devices.kinds
  old : devices x = some d → ∃ d0, initial x = some d0 ∧ d.proto = d0.proto ∧ d.vid = d0.vid ∧
    d.addrgenmode = d0.addrgenmode ∧
    d.master = released (fun b => ∃ y ∈ gone, Vanishes initial.kinds y b) d0.master

section Exit
variable {initial devices after : Devices} {gone : List String} {x : String}

theorem Left.start (initial : Devices) : Left initial [] initial where
  remaining := .start _
  old {x d} found := ⟨d, found, rfl, rfl, rfl, by cases d.master <;> simp [released]⟩

theorem Devices.kinds_del (devices : Devices) (x : String) : (devices.del x).kinds = devices.kinds.del x := by
  funext z
  simp only [kinds, del, Links.del]
  split
  · rfl
  · rw [Option.map_map]
    rfl

theorem Devices.kinds_eq_none {devices : Devices} : devices.kinds x = none ↔ devices x = none := Option.map_eq_none_iff

theorem Left.del (left : Left initial gone devices) (present : devices x ≠ none) :
    Left initial (gone ++ [x]) (devices.del x) where
  remaining := by
    rw [Devices.kinds_del]
    exact left.remaining.del (mt Devices.kinds_eq_none.mp present)
  old := by
    intro z d found
    simp only [Devices.del] at found
    split at found
    · simp at found
    · obtain ⟨d', held, rfl⟩ := Option.map_eq_some_iff.mp found
      obtain ⟨d0, was, proto, vid, mode, master⟩ := left.old held
      refine ⟨d0, was, proto, vid, mode, ?_⟩
      rw [master]
      cases d0.master with
      | none => rfl
      | some b =>
        by_cases lost : ∃ y ∈ gone, Vanishes initial.kinds y b
        · have lost' : ∃ y ∈ gone ++ [x], Vanishes initial.kinds y b :=
            lost.imp fun y => And.imp_left (List.mem_append_left _)
          rw [released, if_pos lost, released, released, if_pos lost']
        · have same := left.remaining.vanishes_iff (mt Devices.kinds_eq_none.mp present) (by simpa using lost)
          have all : (∃ y ∈ gone ++ [x], Vanishes initial.kinds y b) ↔ Vanishes devices.kinds x b := by
            simp [same, or_and_right, exists_or, lost]
          rw [released, if_neg lost, released, released]
          by_cases goes : Vanishes devices.kinds x b
          · rw [if_pos goes, if_pos (all.mpr goes)]
          · rw [if_neg goes, if_neg (mt all.mp goes)]

/-- What leaves kinds and settings of a device alone. -/
theorem Left.adjust (left : Left initial gone devices) (ran : devices.adjust x piece = some after)
    (plain : ∀ d : Device, d.set piece = d) : Left initial gone after := by
  obtain ⟨d, found, rest⟩ := Option.bind_eq_some_iff.mp ran
  obtain ⟨d', set, rfl⟩ := Option.map_eq_some_iff.mp rest
  obtain ⟨inet, _, rest⟩ := Option.bind_eq_some_iff.mp set
  obtain ⟨inet6, _, rfl⟩ := Option.map_eq_some_iff.mp rest
  have kinds : Devices.kinds (Function.update devices x (some { d.set piece with inet := inet, inet6 := inet6 })) =
      devices.kinds := by
    funext z
    by_cases own : z = x
    · subst own
      simp [Devices.kinds, found, plain]
    · simp [Devices.kinds, own]
  refine ⟨kinds ▸ left.remaining, fun {z e} held => ?_⟩
  by_cases own : z = x
  · subst own
    rw [Function.update_self, Option.some.injEq, plain] at held
    subst held
    obtain ⟨d0, was, same⟩ := left.old found
    exact ⟨d0, was, same⟩
  · rw [Function.update_of_ne own] at held
    exact left.old held

theorem Left.takedown (left : Left initial gone devices) (takedown : Takedown)
    (ran : devices.run "" (takedown.pieces x) = some after) : Left initial (gone ++ takedown.gone x) after := by
  cases takedown with
  | nothing =>
    obtain rfl : devices = after := Option.some.inj ran
    simpa [Takedown.gone] using left
  | down =>
    obtain ⟨mid, first, ran⟩ := Option.bind_eq_some_iff.mp ran
    obtain ⟨last, second, ran⟩ := Option.bind_eq_some_iff.mp ran
    obtain rfl : last = after := Option.some.inj ran
    simpa [Takedown.gone] using (left.adjust first fun _ => rfl).adjust second fun _ => rfl
  | del =>
    obtain ⟨mid, first, ran⟩ := Option.bind_eq_some_iff.mp ran
    obtain rfl : mid = after := Option.some.inj ran
    obtain ⟨present, result⟩ := Option.ite_none_left_eq_some.mp first
    obtain rfl := Option.some.inj result
    exact left.del present

/-- After the exit scripts of a list of interfaces, by induction on it. -/
theorem Left.run {takedown : String → Takedown} {order : List String} (left : Left initial gone devices)
    (ran : devices.runScripts (order.map fun v => (takedown v).pieces v) = some after) :
    Left initial (gone ++ order.flatMap fun v => (takedown v).gone v) after := by
  induction order generalizing gone devices with
  | nil =>
    obtain rfl : devices = after := Option.some.inj ran
    simpa using left
  | cons v rest ih =>
    obtain ⟨mid, first, ran⟩ := Option.bind_eq_some_iff.mp ran
    simpa using ih (left.takedown _ first) ran

end Exit

end Netdag
