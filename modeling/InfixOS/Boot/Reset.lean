import InfixOS.Boot.Mnt

/-! What a boot shows after a factory reset, against a first boot. The overlays start
empty on both; what is bound on /var or /var/lib is copied over what was there. -/
namespace Boot
open Exec Posix

variable {α : Type} {image : Image α} {s t : State α}

/-- A partition whose overlay directories are all empty. -/
structure Clean (d : Dir α) : Prop where
  root : d [] = some .dir
  inside : ∀ q, d ("infix" :: q) = none ∨ q.length ≤ 1 ∧ d ("infix" :: q) = some .dir

theorem Clean.empty : Clean (Dir.empty : Dir α) := ⟨rfl, fun _ => .inl rfl⟩

theorem Clean.rmRf {d : Dir α} (root : d [] = some .dir) : Clean (d.rmRf ["infix"]) := by
  constructor
  · exact root
  · intro q
    exact .inl (if_pos (List.prefix_append ["infix"] q))

/-- Only the overlay directories may differ. -/
theorem Clean.congr {d e : Dir α} (clean : Clean d) (root : e [] = d [])
    (same : ∀ q, e ("infix" :: q) = d ("infix" :: q)) : Clean e := by
  constructor
  · rw [root, clean.root]
  · intro q
    rw [same q]
    exact clean.inside q

theorem Clean.way {d : Dir α} (clean : Clean d) :
    ∀ r, r <+: "infix" :: names → d r = none ∨ d r = some .dir := by
  intro r above
  cases r with
  | nil => exact .inr clean.root
  | cons c rest =>
    obtain ⟨rfl, _⟩ := List.cons_prefix_cons.mp above
    exact (clean.inside rest).imp_right And.right

/-- An overlay directory can be made, and nothing else changes. -/
theorem Clean.mkdir {d : Dir α} (clean : Clean d) (short : names.length ≤ 1) :
    ∃ e, d.mkdirP ("infix" :: names) = some e ∧ Clean e ∧ e ("infix" :: names) = some .dir ∧
      ∀ q, ¬["infix"] <+: q → e q = d q := by
  refine ⟨_, Dir.mkdirP_ok clean.way, ?_, ?_, ?_⟩
  · constructor
    · simp [clean.root]
    · intro q
      rcases clean.inside q with missing | ⟨low, there⟩
      · by_cases above : "infix" :: q <+: "infix" :: names
        · have length := above.length_le
          simp only [List.length_cons] at length
          exact .inr ⟨by omega, by simp [above, missing]⟩
        · exact .inl (by simp [above, missing])
      · exact .inr ⟨low, by simp [there]⟩
  · rcases clean.inside names with missing | ⟨_, there⟩
    · simp [missing]
    · simp [there]
  · intro q outside
    cases q with
    | nil => simp [clean.root]
    | cons c rest =>
      have other : ¬c :: rest <+: "infix" :: names := by
        intro above
        obtain ⟨rfl, _⟩ := List.cons_prefix_cons.mp above
        exact outside (List.prefix_append ["infix"] rest)
      simp [other]

@[simp] theorem set_disks (s : State α) (disk : Disk) (d : Dir α) : (s.set disk d).disks disk = d :=
  Function.update_self ..

theorem set_disks_ne (s : State α) (d : Dir α) (other : disk' ≠ disk) : (s.set disk d).disks disk' = s.disks disk' :=
  Function.update_of_ne other ..

@[simp] theorem set_mounts (s : State α) (disk : Disk) (d : Dir α) : (s.set disk d).mounts = s.mounts := rfl

/-- The overlays mounted so far hide nothing of what was mounted before them. -/
structure Staged (image : Image α) (base : List (Mount Disk)) (s : State α) : Prop where
  clean : ∀ disk, disk ≠ .var → Clean (s.disks disk)
  layered : ∃ overlays, s.mounts = overlays ++ base ∧ ∀ m ∈ overlays,
    (∃ disk tag dst, disk ≠ .var ∧ m = .overlay (disk, ["infix", tag]) dst) ∧
      ∀ disks, Mount.view disks image.root base m.target = some .dir

/-- Changes to the partitions that leave the overlay directories empty. -/
theorem Staged.congr (staged : Staged image base s) (mounts : t.mounts = s.mounts)
    (clean : ∀ disk, disk ≠ .var → Clean (t.disks disk)) : Staged image base t :=
  ⟨clean, mounts ▸ staged.layered⟩

theorem Staged.seen (staged : Staged image base s) : s.seen image = Mount.view s.disks image.root base := by
  obtain ⟨overlays, mounts, layers⟩ := staged.layered
  rw [State.seen, mounts]
  clear mounts
  induction overlays with
  | nil => rfl
  | cons m rest ih =>
    have earlier := ih fun n member => layers n (List.mem_cons_of_mem _ member)
    obtain ⟨⟨disk, tag, dst, isnt, rfl⟩, below⟩ := layers m List.mem_cons_self
    have clean := staged.clean disk isnt
    rw [List.cons_append, Mount.view_overlay_empty, earlier]
    · intro q nonempty
      rcases clean.inside (tag :: q) with missing | ⟨short, _⟩
      · exact missing
      · cases q with
        | nil => exact absurd rfl nonempty
        | cons c rest =>
          simp only [List.length_cons] at short
          omega
    · exact (clean.inside [tag]).imp_right And.right
    · rw [earlier]
      exact below s.disks

/-- The same partitions outside the overlay directories. -/
def Keeps (s t : State α) : Prop := ∀ disk q, disk = .var ∨ ¬["infix"] <+: q → t.disks disk q = s.disks disk q

theorem Keeps.trans (first : Keeps s t) (second : Keeps t u) : Keeps s u :=
  fun disk q outside => (second disk q outside).trans (first disk q outside)

theorem mkdir_ok (staged : Staged image base s) (src : Disk) (stored : src ≠ .var) (names : Path)
    (short : names.length ≤ 1) :
    ∃ t, mkdir src ("infix" :: names) s = (.ok (), t) ∧ Staged image base t ∧ Keeps s t ∧
      t.disks src ("infix" :: names) = some .dir ∧ t.mounts = s.mounts ∧
        ∀ disk q, s.disks disk q = some .dir → t.disks disk q = some .dir := by
  obtain ⟨e, made, clean, there, same⟩ := (staged.clean src stored).mkdir short
  have disks : ∀ disk, disk ≠ src → (s.set src e).disks disk = s.disks disk :=
    fun disk other => set_disks_ne s e other
  refine ⟨s.set src e, by rw [mkdir, made], staged.congr rfl ?_, ?_, by simpa using there, rfl, ?_⟩
  · intro disk isnt
    by_cases it : disk = src
    · subst it
      simpa using clean
    · rw [disks disk it]
      exact staged.clean disk isnt
  · intro disk q outside
    by_cases it : disk = src
    · subst it
      simpa using same q (outside.resolve_left stored)
    · rw [disks disk it]
  · intro disk q dir
    by_cases it : disk = src
    · subst it
      rw [set_disks]
      rw [Dir.mkdirP_ok (staged.clean disk stored).way, Option.some.injEq] at made
      simp [← made, dir]
    · rwa [disks disk it]

/-- An overlay goes on where there is a directory, and is not seen. -/
theorem mountOverlay_ok (staged : Staged image base s) (tag : String) (src : Disk) (stored : src ≠ .var)
    (dir : ∀ disks, Mount.view disks image.root base dst = some .dir) :
    ∃ t, mountOverlay image tag src dst s = (.ok (), t) ∧ Staged image base t ∧ Keeps s t := by
  obtain ⟨u, upper, stagedUpper, keepsUpper, there, _, _⟩ := mkdir_ok staged src stored [tag ++ ".u"] (by simp)
  obtain ⟨w, work, stagedWork, keepsWork, _, _, remains⟩ := mkdir_ok stagedUpper src stored [tag ++ ".w"] (by simp)
  refine ⟨{ w with mounts := .overlay (src, ["infix", tag ++ ".u"]) dst :: w.mounts }, ?_, ?_, ?_⟩
  · rw [mountOverlay, Program.bind_eq upper, Program.bind_eq work, mount]
    refine if_pos ?_
    rw [stagedWork.seen]
    simp [Mount.source, Mount.target, remains src _ there, dir w.disks, Node.isDir]
  · refine ⟨stagedWork.clean, ?_⟩
    obtain ⟨overlays, mounts, layers⟩ := stagedWork.layered
    refine ⟨_ :: overlays, congrArg _ mounts, ?_⟩
    intro m member
    rcases List.mem_cons.mp member with rfl | member
    · exact ⟨⟨src, _, dst, stored, rfl⟩, dir⟩
    · exact layers m member
  · exact keepsUpper.trans keepsWork

/-- A partition once a raised flag has been obeyed. -/
def obeyed (flag : Bool) (d : Dir α) : Dir α := if flag then d.rmRf ["infix"] else d

theorem factoryReset_eq (s : State α) : factoryReset s =
    (.ok (), (s.set .cfg (obeyed (flagged (s.disks .cfg)) (s.disks .cfg))).set .var
      (obeyed (flagged (s.disks .cfg)) (s.disks .var))) := by
  rw [factoryReset, Program.update]
  cases flagged (s.disks .cfg) with
  | true => rfl
  | false => simp [obeyed, State.set]

/-- The part of the script that looks for the cfg partition, when it is there. -/
theorem mountCfg_ok (mounts : s.mounts = base) (clean : Clean (obeyed (flagged (s.disks .cfg)) (s.disks .cfg)))
    (tmp : Clean (s.disks .tmp))
    (dirs : ∀ p ∈ targets.take 4, ∀ disks, Mount.view disks image.root base p = some .dir) :
    ∃ t, mountCfg image true s = (.ok (), t) ∧ Staged image base t ∧
      t.disks .var = obeyed (flagged (s.disks .cfg)) (s.disks .var) ∧
        ∀ q, ¬["infix"] <+: q → t.disks .cfg q = s.disks .cfg q := by
  have staged : Staged image base ((s.set .cfg (obeyed (flagged (s.disks .cfg)) (s.disks .cfg))).set .var
      (obeyed (flagged (s.disks .cfg)) (s.disks .var))) := by
    refine ⟨?_, [], mounts, by simp⟩
    intro disk isnt
    rw [set_disks_ne _ _ isnt]
    cases disk with
    | cfg => simpa using clean
    | var => exact absurd rfl isnt
    | tmp =>
      rw [set_disks_ne _ _ (by simp)]
      exact tmp
  have stored : (if (true && !image.netconf) = true then Disk.cfg else Disk.tmp) ≠ .var := by
    split
    · simp
    · simp
  obtain ⟨a, made, staged, keeps, _, _, _⟩ := mkdir_ok staged .cfg (by simp) [] (by simp)
  obtain ⟨b, ranCfg, staged, keepsCfg⟩ := mountOverlay_ok staged "cfg" .cfg (by simp) (dirs ["cfg"] (by simp [targets]))
  obtain ⟨c, ranEtc, staged, keepsEtc⟩ := mountOverlay_ok staged "etc" _ stored (dirs ["etc"] (by simp [targets]))
  obtain ⟨d, ranHome, staged, keepsHome⟩ := mountOverlay_ok staged "home" .cfg (by simp) (dirs ["home"] (by simp [targets]))
  obtain ⟨e, ranRoot, staged, keepsRoot⟩ := mountOverlay_ok staged "root" .cfg (by simp) (dirs ["root"] (by simp [targets]))
  have kept := keeps.trans (keepsCfg.trans (keepsEtc.trans (keepsHome.trans keepsRoot)))
  have prepared : (Program.onlyIf true (do factoryReset; mkdir .cfg ["infix"]) : Script α Unit) s = (.ok (), a) := by
    rw [Program.onlyIf, if_pos rfl, Program.bind_eq (factoryReset_eq s), made]
  refine ⟨e, ?_, staged, ?_, ?_⟩
  · rw [mountCfg, Program.bind_eq prepared]
    rw [if_pos rfl, Program.bind_eq ranCfg, Program.bind_eq ranEtc, Program.bind_eq ranHome, ranRoot]
  · funext q
    rw [kept .var q (.inl rfl), set_disks]
  · intro q outside
    rw [kept .cfg q (.inr outside), set_disks_ne _ _ (by simp), set_disks, obeyed]
    split
    · exact if_neg outside
    · rfl

/-- A bind mount, once its source has been made and filled. -/
theorem mountBind_ok (src : Disk × Path) (made : (s.disks src.1).mkdirP src.2 = some d)
    (filled : t = s.set src.1 (d.graft src.2 (Dir.cpAf (((s.set src.1 d).seen image).below dst) (d.below src.2))))
    (source : t.disks src.1 src.2 = some .dir) (target : t.seen image dst = some .dir) :
    mountBind image src dst s = (.ok (), { t with mounts := .bind src dst :: t.mounts }) := by
  have first : mkdir src.1 src.2 s = (.ok (), s.set src.1 d) := by rw [mkdir, made]
  have second : ∀ f : State α → State α, f (s.set src.1 d) = t →
      Program.update f (s.set src.1 d) = ((.ok (), t) : Except Unit Unit × State α) := by
    intro f same
    rw [Program.update, same]
  rw [mountBind, Program.bind_eq first, Program.bind_eq (second _ ?_), mount]
  · simp [Mount.source, Mount.target, source, target, Node.isDir]
  · simp [filled, State.set]

/-- A directory of the image copied over what a partition holds. -/
def refreshed (image : Image α) (dst : Path) (d : Dir α) : Dir α := Dir.cpAf (image.root.below dst) d

theorem refreshed_root {d : Dir α} (member : dst ∈ targets) (root : d [] = some .dir) :
    refreshed image dst d [] = some .dir := by
  have here : image.root.below dst [] = some .dir := by
    rw [Dir.below, List.append_nil]
    exact image.dirs dst member
  rw [refreshed, Dir.cpAf]
  split
  · exact root
  · rw [here]
    rfl

/-- What is seen with a var partition. -/
theorem booted_var {cfg var : Dir α} (clean : Clean (obeyed (flagged cfg) cfg)) (root : var [] = some .dir) (p : Path) :
    booted image cfg (some var) p =
      if ["var"] <+: p then obeyed (flagged cfg) (refreshed image ["var"] var) (p.drop 1) else image.root p := by
  have made : var.mkdirP [] = some var := by
    rw [Dir.mkdirP_ok (by simp [root])]
    congr 1
    funext q
    by_cases it : q = []
    · simp [it, root]
    · simp [it]
  have filled : powered cfg (refreshed image ["var"] var) = (powered cfg var).set .var
      (var.graft [] (Dir.cpAf ((((powered cfg var).set .var var).seen image).below ["var"]) (var.below []))) := by
    have here : ((powered cfg var).set .var var).seen image = image.root := rfl
    have below : var.below [] = var := rfl
    rw [here, below]
    simp only [powered, State.set, State.mk.injEq, and_true]
    funext disk
    cases disk with
    | cfg => rfl
    | tmp => rfl
    | var =>
      rw [Function.update_self]
      rfl
  have bound : mountBind image (.var, []) ["var"] (powered cfg var) =
      (.ok (), ⟨(powered cfg (refreshed image ["var"] var)).disks, [.bind (.var, []) ["var"]]⟩) :=
    mountBind_ok _ made filled (refreshed_root (by simp [targets]) root) (image.dirs _ (by simp [targets]))
  have outside : ∀ p ∈ targets.take 4, ¬["var"] <+: p := by decide
  have dirs : ∀ p ∈ targets.take 4, ∀ disks : Disk → Dir α,
      Mount.view disks image.root [.bind (.var, []) ["var"]] p = some .dir := by
    intro p member disks
    rw [Mount.view_bind_outside (outside p member)]
    exact image.dirs p (List.mem_of_mem_take member)
  obtain ⟨t, ran, staged, stored, _⟩ := mountCfg_ok
    (s := ⟨(powered cfg (refreshed image ["var"] var)).disks, [.bind (.var, []) ["var"]]⟩) rfl clean Clean.empty dirs
  have whole : mnt image true true (powered cfg var) = (.ok (), t) := by
    rw [mnt, Program.onlyIf, if_pos rfl, Program.bind_eq bound]
    exact Program.bind_eq ran _
  rw [booted, Option.isSome_some, Option.getD_some, whole, staged.seen, Mount.view]
  simp [stored, powered, Mount.view]

/-- The script up to the mount on /var/lib, without a var partition: nothing but the
image is seen. -/
theorem mnt_fallback (image : Image α) {cfg : Dir α} (clean : Clean (obeyed (flagged cfg) cfg)) :
    ∃ t, mnt image false true (powered cfg Dir.empty) = mountBind image (.cfg, ["vlib"]) ["var", "lib"] t ∧
      Staged image [] t ∧ ∀ q, ¬["infix"] <+: q → t.disks .cfg q = cfg q := by
  have dirs : ∀ p ∈ targets, ∀ disks : Disk → Dir α, Mount.view disks image.root [] p = some .dir :=
    fun p member disks => image.dirs p member
  obtain ⟨t, ran, staged, _, kept⟩ := mountCfg_ok (s := powered cfg Dir.empty) rfl clean Clean.empty
    fun p member => dirs p (List.mem_of_mem_take member)
  obtain ⟨u, ranVar, staged, keeps⟩ := mountOverlay_ok staged "var" .tmp (by simp) (dirs ["var"] (by simp [targets]))
  refine ⟨u, ?_, staged, ?_⟩
  · have nothing : (Program.onlyIf false (mountBind image (.var, []) ["var"]) : Script α Unit) (powered cfg Dir.empty) =
        (.ok (), powered cfg Dir.empty) := rfl
    rw [mnt, Program.bind_eq nothing, Program.bind_eq ran]
    exact Program.bind_eq ranVar _
  · intro q outside
    rw [keeps .cfg q (.inr outside), kept q outside]
    rfl

/-- What /var/lib is bound to, once the directory has been made. -/
def vlib (cfg : Dir α) : Dir α := fun q => if q = [] then some .dir else cfg ("vlib" :: q)

theorem Clean.mkdir_vlib {d : Dir α} (clean : Clean d) (way : d ["vlib"] = none ∨ d ["vlib"] = some .dir) :
    ∃ e, d.mkdirP ["vlib"] = some e ∧ Clean e ∧ e.below ["vlib"] = vlib d := by
  have way' : ∀ r, r <+: ["vlib"] → d r = none ∨ d r = some .dir := by
    intro r above
    cases r with
    | nil => exact .inr clean.root
    | cons c rest =>
      obtain ⟨rfl, nothing⟩ := List.cons_prefix_cons.mp above
      rw [List.prefix_nil.mp nothing]
      exact way
  refine ⟨_, Dir.mkdirP_ok way', clean.congr ?_ ?_, ?_⟩
  · simp [clean.root]
  · intro q
    simp
  · funext q
    cases q with
    | nil =>
      rcases way with missing | there
      · simp [Dir.below, vlib, missing]
      · simp [Dir.below, vlib, there]
    | cons c rest => simp [Dir.below, vlib]

theorem Clean.graft_vlib {d : Dir α} (clean : Clean d) (sub : Dir α) : Clean (d.graft ["vlib"] sub) := by
  apply clean.congr
  · exact if_neg (by simp)
  · intro q
    exact if_neg (by simp)

theorem Staged.set_cfg (staged : Staged image base s) {d : Dir α} (clean : Clean d) :
    Staged image base (s.set .cfg d) := by
  apply staged.congr (set_mounts s .cfg d)
  intro disk isnt
  by_cases it : disk = .cfg
  · subst it
    simpa using clean
  · rw [set_disks_ne _ _ it]
    exact staged.clean disk isnt

/-- What is seen without a var partition. -/
theorem booted_vlib {cfg : Dir α} (clean : Clean (obeyed (flagged cfg) cfg))
    (way : cfg ["vlib"] = none ∨ cfg ["vlib"] = some .dir) (p : Path) :
    booted image cfg none p =
      if ["var", "lib"] <+: p then refreshed image ["var", "lib"] (vlib cfg) (p.drop 2) else image.root p := by
  obtain ⟨t, ran, staged, kept⟩ := mnt_fallback image clean
  have same : vlib (t.disks .cfg) = vlib cfg := by
    funext q
    rw [vlib, vlib, kept _ (by simp)]
  obtain ⟨d, made, cleanMade, below⟩ :=
    (staged.clean .cfg (by simp)).mkdir_vlib (by rwa [kept _ (by decide)])
  have filled : t.set .cfg (d.graft ["vlib"] (refreshed image ["var", "lib"] (vlib cfg))) =
      t.set .cfg (d.graft ["vlib"] (Dir.cpAf (((t.set .cfg d).seen image).below ["var", "lib"]) (d.below ["vlib"]))) := by
    rw [(staged.set_cfg cleanMade).seen, below, same]
    rfl
  have source : (t.set .cfg (d.graft ["vlib"] (refreshed image ["var", "lib"] (vlib cfg)))).disks .cfg ["vlib"] =
      some .dir := by
    rw [set_disks]
    exact refreshed_root (by simp [targets]) rfl
  have stagedFilled := staged.set_cfg (cleanMade.graft_vlib (refreshed image ["var", "lib"] (vlib cfg)))
  have bound := mountBind_ok (.cfg, ["vlib"]) made filled source (by
    rw [stagedFilled.seen]
    exact image.dirs _ (by simp [targets]))
  rw [booted, Option.isSome_none, Option.getD_none, ran, bound, State.seen]
  split
  · rename_i inside
    rw [Mount.view_bind_below inside]
    simp only [set_disks, Dir.graft_below]
    rfl
  · rename_i outside
    rw [Mount.view_bind_outside outside]
    exact congrFun stagedFilled.seen p

/-- Something in the way of the directory ends the script. -/
theorem booted_blocked {cfg : Dir α} (clean : Clean (obeyed (flagged cfg) cfg)) (blocked : cfg ["vlib"] = some n)
    (other : n.isDir = false) : booted image cfg none = image.root := by
  obtain ⟨t, ran, staged, kept⟩ := mnt_fallback image clean
  have refused : mkdir .cfg ["vlib"] t = (.error (), t) := by
    have none : (t.disks .cfg).mkdirP ["vlib"] = none := by
      refine if_neg ?_
      simp [kept ["vlib"] (by decide), blocked, other]
    rw [mkdir, none]
  have ended : mountBind image (.cfg, ["vlib"]) ["var", "lib"] t = (.error (), t) := Program.bind_error refused _
  rw [booted, Option.isSome_none, Option.getD_none, ran, ended, staged.seen]
  rfl

/-- Copying shows the image where it covers the partition, and only there. -/
theorem refreshed_eq_iff (image : Image α) (dst : Path) {d : Dir α} (part : Path → Prop) (closed : ∀ r q, r <+: q → part q → part r) :
    (∀ q, part q → refreshed image dst d q = image.root (dst ++ q)) ↔
      ∀ q m, part q → d q = some m → ∃ n, image.root (dst ++ q) = some n ∧ n.isDir = m.isDir :=
  Dir.cpAf_eq_iff closed

theorem refreshed_single {d : Dir α} (member : dst ∈ targets) (root : d [] = some .dir)
    (single : ∀ q, q ≠ [] → d q = none) (q : Path) : refreshed image dst d q = image.root (dst ++ q) := by
  apply (refreshed_eq_iff image dst (fun _ => True) fun _ _ _ _ => trivial).mpr _ q trivial
  intro q m _ there
  by_cases it : q = []
  · subst it
    rw [root, Option.some.injEq] at there
    rw [List.append_nil]
    exact ⟨.dir, image.dirs dst member, by rw [there]⟩
  · rw [single q it] at there
    cases there

/-- A first boot shows the image. -/
theorem booted_first (image : Image α) (var : Option (Dir α)) (p : Path) :
    booted image Dir.empty (var.map fun _ => Dir.empty) p = image.root p := by
  have clean : Clean (obeyed (flagged (Dir.empty : Dir α)) (Dir.empty : Dir α)) := Clean.empty
  cases var with
  | some d =>
    rw [Option.map_some, booted_var clean rfl]
    split
    · rename_i inside
      obtain ⟨q, rfl⟩ := inside
      exact refreshed_single (by simp [targets]) rfl (fun q other => if_neg other) q
    · rfl
  | none =>
    rw [Option.map_none, booted_vlib clean (.inl rfl)]
    split
    · rename_i inside
      obtain ⟨q, rfl⟩ := inside
      exact refreshed_single (by simp [targets]) rfl (fun q other => by simp [vlib, other, Dir.empty]) q
    · rfl

/-- The image has an entry of the same kind for every entry that the reset leaves on
the partition behind /var or /var/lib, and none of its own where the reset deletes. -/
def Hidden (image : Image α) (cfg : Dir α) : Option (Dir α) → Prop
  | some var => (∀ q, image.root ("var" :: "infix" :: q) = none) ∧ ∀ q m, ¬["infix"] <+: q → var q = some m →
      ∃ n, image.root ("var" :: q) = some n ∧ n.isDir = m.isDir
  | none => ∀ q m, q ≠ [] → cfg ("vlib" :: q) = some m →
      ∃ n, image.root ("var" :: "lib" :: q) = some n ∧ n.isDir = m.isDir

/-- Only /var can differ from the image. -/
theorem shows_var_iff {shown : Dir α} {cfg var : Dir α} (seen : ∀ p, shown p =
      if ["var"] <+: p then obeyed (flagged cfg) (refreshed image ["var"] var) (p.drop 1) else image.root p)
    (flag : flagged cfg = true) :
    (∀ top ∈ ["cfg", "etc", "home", "root", "var"], ∀ q, shown (top :: q) = image.root (top :: q)) ↔
      Hidden image cfg (some var) := by
  have closed : ∀ r q : Path, r <+: q → ¬["infix"] <+: q → ¬["infix"] <+: r :=
    fun r q above outside inside => outside (inside.trans above)
  have covers := refreshed_eq_iff image ["var"] (d := var) _ closed
  rw [flag] at seen
  constructor
  · intro same
    have below : ∀ q, (refreshed image ["var"] var).rmRf ["infix"] q = image.root ("var" :: q) := by
      intro q
      rw [← same "var" (by simp) q, seen, if_pos (by simp)]
      rfl
    constructor
    · intro q
      rw [← below ("infix" :: q)]
      exact if_pos (List.prefix_append ["infix"] q)
    · apply covers.mp
      intro q outside
      rw [List.singleton_append, ← below q]
      exact (if_neg outside).symm
  · rintro ⟨deleted, covered⟩ top _ q
    rw [seen]
    split
    · rename_i inside
      obtain ⟨rfl, _⟩ := List.cons_prefix_cons.mp inside
      change (refreshed image ["var"] var).rmRf ["infix"] q = _
      by_cases removed : ["infix"] <+: q
      · rw [Dir.rmRf, if_pos removed]
        obtain ⟨r, rfl⟩ := removed
        exact (deleted r).symm
      · rw [Dir.rmRf, if_neg removed]
        exact covers.mpr covered q removed
    · rfl

/-- Only /var/lib can differ from the image. -/
theorem shows_vlib_iff {shown : Dir α} {cfg : Dir α} (seen : ∀ p, shown p =
      if ["var", "lib"] <+: p then refreshed image ["var", "lib"] (vlib cfg) (p.drop 2) else image.root p) :
    (∀ top ∈ ["cfg", "etc", "home", "root", "var"], ∀ q, shown (top :: q) = image.root (top :: q)) ↔
      Hidden image cfg none := by
  have covers := refreshed_eq_iff image ["var", "lib"] (d := vlib cfg) (fun _ => True)
    fun _ _ _ _ => trivial
  constructor
  · intro same q m nonempty there
    apply covers.mp _ q m trivial (by simpa [vlib, nonempty] using there)
    intro q _
    rw [List.cons_append, List.cons_append, List.nil_append, ← same "var" (by simp) ("lib" :: q), seen,
      if_pos (by simp)]
    rfl
  · intro covered top _ q
    rw [seen]
    split
    · rename_i inside
      obtain ⟨r, same⟩ := inside
      rw [← same]
      refine covers.mpr ?_ r trivial
      intro q m _ there
      by_cases it : q = []
      · subst it
        simp only [vlib, if_pos, Option.some.injEq] at there
        exact ⟨.dir, image.dirs _ (by simp [targets]), by rw [there]⟩
      · exact covered q m it (by simpa [vlib, it] using there)
    · rfl

/-- A factory reset brings back the directories of a first boot if and only if the
image hides what is left. -/
theorem factory_reset_iff (image : Image α) {cfg : Dir α} {var : Option (Dir α)} (proper : cfg.Proper)
    (properVar : ∀ d ∈ var, d.Proper) (flag : flagged cfg = true) :
    (∀ top ∈ ["cfg", "etc", "home", "root", "var"], ∀ q,
      booted image cfg var (top :: q) = booted image Dir.empty (var.map fun _ => Dir.empty) (top :: q)) ↔
        Hidden image cfg var := by
  have clean : Clean (obeyed (flagged cfg) cfg) := by
    rw [flag]
    exact Clean.rmRf proper.root
  simp only [booted_first]
  cases var with
  | some d => exact shows_var_iff (booted_var clean (properVar d rfl).root) flag
  | none =>
    cases stored : cfg ["vlib"] with
    | none => exact shows_vlib_iff (booted_vlib clean (.inl stored))
    | some n =>
      cases isDir : n.isDir with
      | true => exact shows_vlib_iff (booted_vlib clean (.inr (by rw [stored, n.eq_dir isDir])))
      | false =>
        rw [booted_blocked clean stored isDir]
        -- nothing can lie below what is not a directory
        refine ⟨fun _ q m nonempty there => ?_, fun _ _ _ _ => rfl⟩
        have dir := proper.ancestor (p := ["vlib"]) nonempty (by simp [there])
        rw [stored, Option.some.injEq] at dir
        simp [dir, Node.isDir] at isDir

/-- An image with one file, in /var/lib. -/
def seedImage : Image Nat where
  root := Dir.ofList ((["var", "lib", "seed"], .file [1] false) :: targets.map fun p => (p, .dir))
  netconf := true
  dirs := by decide

/-- A cfg partition with the flag, and a file for /var/lib. -/
def raisedCfg (name : String) : Dir Nat := Dir.ofList
  [([], .dir), (["infix"], .dir), (["infix", ".reset"], .file [] false), (["vlib"], .dir), (["vlib", name], .file [7] false)]

def usedVar (name : String) : Dir Nat := Dir.ofList [([], .dir), (["lib"], .dir), (["lib", name], .file [7] false)]

theorem raisedCfg_proper : (raisedCfg "seed").Proper := Dir.Proper.ofList (by decide) (by decide)

theorem usedVar_proper : (usedVar "seed").Proper := Dir.Proper.ofList (by decide) (by decide)

/-- The file of an image is all that had been changed. -/
theorem factory_reset_iff_seed : flagged (raisedCfg "seed") = true ∧
    ∀ top ∈ ["cfg", "etc", "home", "root", "var"], ∀ q,
      booted seedImage (raisedCfg "seed") (some (usedVar "seed")) (top :: q) =
        booted seedImage Dir.empty (some Dir.empty) (top :: q) := by
  have hidden : Hidden seedImage (raisedCfg "seed") (some (usedVar "seed")) := by
    constructor
    · intro q
      cases image : seedImage.root ("var" :: "infix" :: q) with
      | none => rfl
      | some n => simpa [targets] using Dir.mem_of_ofList image
    · have covered : ∀ e ∈ [([], .dir), (["lib"], .dir), (["lib", "seed"], (.file [7] false : Node Nat))],
          ∃ n, seedImage.root ("var" :: e.1) = some n ∧ n.isDir = e.2.isDir := by
        simp only [List.forall_mem_cons]
        exact ⟨⟨.dir, rfl, rfl⟩, ⟨.dir, rfl, rfl⟩, ⟨.file [1] false, rfl, rfl⟩, by simp⟩
      intro q m _ there
      exact covered _ (Dir.mem_of_ofList there)
  have flag : flagged (raisedCfg "seed") = true := by decide
  exact ⟨flag, (factory_reset_iff seedImage raisedCfg_proper (by simp [usedVar_proper]) flag).mpr hidden⟩

/-- A file in /var/lib is still there after the reset, with and without a var
partition. -/
theorem reset_keeps_var_lib : flagged (raisedCfg "old") = true ∧
    booted seedImage (raisedCfg "old") (some (usedVar "old")) ["var", "lib", "old"] = some (.file [7] false) ∧
    booted seedImage Dir.empty (some Dir.empty) ["var", "lib", "old"] = none ∧
    booted seedImage (raisedCfg "old") none ["var", "lib", "old"] = some (.file [7] false) ∧
    booted seedImage Dir.empty none ["var", "lib", "old"] = none := by
  decide +kernel

end Boot
