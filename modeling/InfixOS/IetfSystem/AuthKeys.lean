import InfixOS.Core.Sysrepo
import InfixOS.Posix.TwoPhase

/-! The users of src/confd/src/confd/ietf-system.c, change_auth, and the files with their
SSH keys. -/
namespace IetfSystem
open Core Posix

/-- An `authorized-key`. -/
structure SshKey where
  name : String
  algorithm : String
  keyData : String
  deriving DecidableEq, Repr

structure User where
  name : String
  keys : List SshKey
  deriving DecidableEq, Repr

/-- The list `user`, whose key is the name. -/
structure Authentication where
  users : List User
  distinct : (users.map User.name).Nodup

namespace Authentication

def names (auth : Authentication) : List String := auth.users.map User.name

def empty : Authentication := ⟨[], List.nodup_nil⟩

end Authentication

/-- A change of a user, `struct sr_change`. -/
structure UserChange where
  op : SrOp
  name : String
  deriving DecidableEq, Repr

/-- What the calls that the callback makes report, by user where it matters. -/
structure AuthCalls where
  adduser : String → Bool
  deluser : String → Bool
  opens : String → Bool
  /-- aug_load, the passwords and aug_save. -/
  shadow : SrError

/-- `is_valid_username`. -/
def isValidUsername (user : String) : Bool :=
  match user.toList with
  | [] => false
  | first :: rest =>
    (first.isAlpha || first = '_') && rest.all fun c => c.isAlphanum || c = '_' || c = '-' || c = '.'

def keysFile (user : String) : String := "/var/run/sshd/" ++ user ++ ".keys"

/-- `handle_sr_user_update`, with sys_add_new_user and sys_del_user. -/
def handleUserUpdate (calls : AuthCalls) (files : Files String) (change : UserChange) : Files String × SrError :=
  match change.op with
  | .created => (files, if calls.adduser change.name then .ok else .sys)
  | .deleted => (files.remove (keysFile change.name), if calls.deluser change.name then .ok else .sys)
  | .moved | .modified => (files, .ok)

/-- `_sr_change_iter`, which stops at the first error. -/
def changeIter (cb : Files String → UserChange → Files String × SrError) :
    Files String → List UserChange → Files String × SrError
  | files, [] => (files, .ok)
  | files, change :: later =>
    match cb files change with
    | (files, .ok) => changeIter cb files later
    | (files, err) => (files, err)

/-- `"%s %s %s\n"` without its end. A key always has a name. -/
def keyLine (key : SshKey) : String := key.algorithm ++ " " ++ key.keyData ++ " " ++ key.name

def keysText (keys : List SshKey) : String := String.join (keys.map fun key => keyLine key ++ "\n")

/-- One pass of the loop in `generate_auth_keys`. -/
def generateUserKeys (calls : AuthCalls) (files : Files String) (user : User) : Files String :=
  if user.keys = [] then files.remove (keysFile user.name)
  else if calls.opens user.name then files.write (keysFile user.name) (keysText user.keys)
  else files

def generateAuthKeys (calls : AuthCalls) (files : Files String) (users : List User) : Files String :=
  users.foldl (generateUserKeys calls) files

/-- `change_auth_check`. -/
def changeAuthCheck : List UserChange → SrError
  | [] => .ok
  | change :: later => if isValidUsername change.name then changeAuthCheck later else .validationFailed

/-- `change_auth_done`. The session reads the new configuration. -/
def changeAuthDone (calls : AuthCalls) (changes : List UserChange) (auth : Authentication) (files : Files String) :
    Files String × SrError :=
  match changeIter (handleUserUpdate calls) files changes with
  | (files, .ok) =>
    if calls.shadow = .ok then (generateAuthKeys calls files auth.users, .ok) else (files, calls.shadow)
  | (files, err) => (files, err)

/-- The changes of a transaction, in the iterator's order. -/
structure Lists (changes : List UserChange) (old new : Authentication) : Prop where
  created : ∀ name, ⟨.created, name⟩ ∈ changes ↔ name ∈ new.names ∧ name ∉ old.names
  deleted : ∀ name, ⟨.deleted, name⟩ ∈ changes ↔ name ∈ old.names ∧ name ∉ new.names

/-- Every call succeeds. -/
structure AuthCalls.Succeed (calls : AuthCalls) : Prop where
  adduser : ∀ name, calls.adduser name = true
  deluser : ∀ name, calls.deluser name = true
  opens : ∀ name, calls.opens name = true
  shadow : calls.shadow = .ok

/-- The running configuration, and the files. -/
structure AuthState where
  running : Authentication
  files : Files String

/-- A committed transaction: its CHANGE passes and its DONE is carried out. -/
inductive AuthCommit : AuthState → AuthState → Prop
  | intro (lists : Lists changes s.running new) (checked : changeAuthCheck changes = .ok) (succeed : calls.Succeed) :
    AuthCommit s ⟨new, (changeAuthDone calls changes new s.files).1⟩

/-- The states after the transactions from the empty configuration. -/
inductive AuthReached : AuthState → Prop
  | start (none : ∀ name, files (keysFile name) = none) : AuthReached ⟨.empty, files⟩
  | commit (reached : AuthReached s) (step : AuthCommit s t) : AuthReached t

section Files

theorem keysFile_inj (same : keysFile a = keysFile b) : a = b := by
  have chars := congrArg String.toList same
  simp only [keysFile, String.toList_append] at chars
  exact String.toList_injective (List.append_cancel_left (List.append_cancel_right chars))

/-- The file of a user in full. -/
def userFile (user : User) : Option String := if user.keys = [] then none else some (keysText user.keys)

theorem generateUserKeys_own (opens : calls.opens user.name = true) (files : Files String) :
    generateUserKeys calls files user (keysFile user.name) = userFile user := by
  rw [generateUserKeys, userFile, if_pos opens]
  split
  · simp [Files.remove]
  · simp [Files.write]

theorem generateUserKeys_other (other : name ≠ user.name) (files : Files String) :
    generateUserKeys calls files user (keysFile name) = files (keysFile name) := by
  have apart : keysFile name ≠ keysFile user.name := fun same => other (keysFile_inj same)
  rw [generateUserKeys]
  split
  · simp [Files.remove, apart]
  · split
    · simp [Files.write, apart]
    · rfl

theorem generateAuthKeys_other (absent : name ∉ users.map User.name) (files : Files String) :
    generateAuthKeys calls files users (keysFile name) = files (keysFile name) := by
  induction users generalizing files with
  | nil => rfl
  | cons user later ih =>
    rw [List.map_cons, List.mem_cons, not_or] at absent
    exact (ih absent.2 _).trans (generateUserKeys_other absent.1 files)

theorem generateAuthKeys_own (succeed : calls.Succeed) (distinct : (users.map User.name).Nodup) (member : user ∈ users)
    (files : Files String) : generateAuthKeys calls files users (keysFile user.name) = userFile user := by
  induction users generalizing files with
  | nil => simp at member
  | cons first later ih =>
    obtain ⟨fresh, distinct⟩ := List.nodup_cons.mp distinct
    rcases List.mem_cons.mp member with rfl | inside
    · exact (generateAuthKeys_other fresh _).trans (generateUserKeys_own (succeed.opens _) files)
    · exact ih distinct inside _

/-- The iterator removes the files of the deleted users, and no others. -/
theorem changeIter_files (succeed : calls.Succeed) (changes : List UserChange) (files : Files String) :
    (changeIter (handleUserUpdate calls) files changes).2 = .ok ∧
      ∀ name, (changeIter (handleUserUpdate calls) files changes).1 (keysFile name) =
        if ⟨.deleted, name⟩ ∈ changes then none else files (keysFile name) := by
  induction changes generalizing files with
  | nil => simp [changeIter]
  | cons change later ih =>
    obtain ⟨op, user⟩ := change
    cases op with
    | created => simp [changeIter, handleUserUpdate, succeed.adduser, ih]
    | modified => simp [changeIter, handleUserUpdate, ih]
    | moved => simp [changeIter, handleUserUpdate, ih]
    | deleted =>
      obtain ⟨fine, left⟩ := ih (files.remove (keysFile user))
      simp only [changeIter, handleUserUpdate, succeed.deluser, if_true]
      refine ⟨fine, fun name => ?_⟩
      rw [left name]
      by_cases own : name = user
      · subst own
        simp [Files.remove]
      · have apart : keysFile name ≠ keysFile user := fun same => own (keysFile_inj same)
        simp [Files.remove, own, apart]

/-- The files that belong to a configuration. -/
def Follows (files : Files String) (auth : Authentication) : Prop :=
  (∀ user ∈ auth.users, files (keysFile user.name) = userFile user) ∧
    ∀ name, name ∉ auth.names → files (keysFile name) = none

/-- A transaction makes the files those of its configuration. -/
theorem AuthCommit.follows (step : AuthCommit s t) (before : Follows s.files s.running) : Follows t.files t.running := by
  cases step with
  | @intro changes new _ calls lists _ succeed =>
    obtain ⟨fine, left⟩ := changeIter_files succeed changes s.files
    have done : (changeAuthDone calls changes new s.files).1 =
        generateAuthKeys calls (changeIter (handleUserUpdate calls) s.files changes).1 new.users := by
      rw [changeAuthDone]
      split
      · rename_i files iterated
        rw [iterated, if_pos succeed.shadow]
      · rename_i files err failed iterated
        rw [iterated] at fine
        exact absurd fine failed
    change Follows (changeAuthDone calls changes new s.files).1 new
    rw [done]
    refine ⟨fun user member => generateAuthKeys_own succeed new.distinct member _, fun name absent => ?_⟩
    rw [generateAuthKeys_other absent, left name]
    split
    · rfl
    · rename_i kept
      refine before.2 name fun old => kept ((lists.deleted name).mpr ⟨old, absent⟩)

theorem AuthReached.follows (reached : AuthReached s) : Follows s.files s.running := by
  induction reached with
  | start none => exact ⟨fun user member => by simp [Authentication.empty] at member, fun name _ => none name⟩
  | commit _ step ih => exact step.follows ih

end Files

section Lines

/-- The lines of a file, each of which ends with a newline. -/
def fileLines (text : String) : List String := ((text.toList.splitOnP (· = '\n')).dropLast).map String.ofList

theorem mem_splitOnP {p : Char → Bool} {text part : List Char} (member : part ∈ text.splitOnP p) :
    ∀ c ∈ part, p c = false := by
  induction text generalizing part with
  | nil => simp_all [List.splitOnP_nil]
  | cons x text ih =>
    rw [List.splitOnP_cons_eq_if_modifyHead] at member
    split at member
    · rcases List.mem_cons.mp member with rfl | later
      · simp
      · exact ih later
    · rename_i plain
      cases rest : text.splitOnP p with
      | nil => exact absurd rest (List.splitOnP_ne_nil _ _)
      | cons first others =>
        rw [rest, List.modifyHead_cons] at member
        rw [rest] at ih
        rcases List.mem_cons.mp member with rfl | later
        · intro c inside
          rcases List.mem_cons.mp inside with rfl | tail
          · simpa using plain
          · exact ih List.mem_cons_self c tail
        · exact ih (List.mem_cons_of_mem _ later)

/-- Lines are read back as they were written exactly if none of them holds a newline. -/
theorem fileLines_iff (lines : List String) :
    fileLines (String.join (lines.map (· ++ "\n"))) = lines ↔ ∀ line ∈ lines, '\n' ∉ line.toList := by
  constructor
  · intro same line member newline
    rw [← same] at member
    obtain ⟨part, inside, rfl⟩ := List.mem_map.mp member
    rw [String.toList_ofList] at newline
    simpa using mem_splitOnP (List.dropLast_subset _ inside) '\n' newline
  · intro plain
    induction lines with
    | nil => simp [fileLines]
    | cons line more ih =>
      obtain ⟨here, others⟩ := List.forall_mem_cons.mp plain
      have text : (String.join ((line :: more).map (· ++ "\n"))).toList =
          line.toList ++ '\n' :: (String.join (more.map (· ++ "\n"))).toList := by
        simp
      have rest := ih others
      rw [fileLines] at rest ⊢
      rw [text, List.splitOnP_append_cons_of_forall_mem (fun c member => by
          simpa using fun same : c = '\n' => here (same ▸ member)) '\n' (by simp),
        List.dropLast_cons_of_ne_nil (List.splitOnP_ne_nil _ _), List.map_cons, rest, String.ofList_toList]

end Lines

/-- The files exist for the users with keys, and hold one line for each of them. -/
def Mirrors (s : AuthState) : Prop :=
  (∀ name, (s.files (keysFile name)).isSome = true ↔ ∃ user ∈ s.running.users, user.name = name ∧ user.keys ≠ []) ∧
    ∀ user ∈ s.running.users, ∀ text, s.files (keysFile user.name) = some text → fileLines text = user.keys.map keyLine

/-- After every transaction the files mirror the users exactly if no field of a key holds
a newline. -/
theorem mirrors_iff (reached : AuthReached s) :
    Mirrors s ↔ ∀ user ∈ s.running.users, ∀ key ∈ user.keys,
      '\n' ∉ key.algorithm.toList ∧ '\n' ∉ key.keyData.toList ∧ '\n' ∉ key.name.toList := by
  obtain ⟨own, none⟩ := reached.follows
  have exist : ∀ name, (s.files (keysFile name)).isSome = true ↔
      ∃ user ∈ s.running.users, user.name = name ∧ user.keys ≠ [] := by
    intro name
    constructor
    · intro there
      by_cases known : name ∈ s.running.names
      · obtain ⟨user, member, rfl⟩ := List.mem_map.mp known
        refine ⟨user, member, rfl, fun empty => ?_⟩
        rw [own user member, userFile, if_pos empty] at there
        exact absurd there (by decide)
      · rw [none name known] at there
        exact absurd there (by decide)
    · rintro ⟨user, member, rfl, keys⟩
      rw [own user member, userFile, if_neg keys]
      rfl
  have fields : ∀ key, '\n' ∉ (keyLine key).toList ↔
      '\n' ∉ key.algorithm.toList ∧ '\n' ∉ key.keyData.toList ∧ '\n' ∉ key.name.toList := by
    intro key
    simp [keyLine, String.toList_append]
  have lines : ∀ user : User, fileLines (keysText user.keys) = user.keys.map keyLine ↔
      ∀ key ∈ user.keys, '\n' ∉ (keyLine key).toList := by
    intro user
    have text : keysText user.keys = String.join ((user.keys.map keyLine).map (· ++ "\n")) := by
      rw [keysText, List.map_map]
      rfl
    rw [text, fileLines_iff, List.forall_mem_map]
  constructor
  · intro mirrors user member key listed
    have keys : user.keys ≠ [] := List.ne_nil_of_mem listed
    have held := mirrors.2 user member (keysText user.keys) (by rw [own user member, userFile, if_neg keys])
    exact (fields key).mp ((lines user).mp held key listed)
  · intro plain
    refine ⟨exist, fun user member text found => ?_⟩
    rw [own user member, userFile] at found
    split at found
    · cases found
    · cases found
      exact (lines user).mpr fun key listed => (fields key).mpr (plain user member key listed)

/-- A configuration of one user with one key. -/
def alice (keyName : String) : Authentication := ⟨[⟨"alice", [⟨keyName, "ssh-ed25519", "AAAAC3"⟩]⟩], by simp⟩

def allSucceed : AuthCalls := ⟨fun _ => true, fun _ => true, fun _ => true, .ok⟩

/-- The state after the transaction that creates her. -/
def aliceState (keyName : String) : AuthState :=
  ⟨alice keyName, (changeAuthDone allSucceed [⟨.created, "alice"⟩] (alice keyName) fun _ => none).1⟩

theorem aliceState_reached (keyName : String) : AuthReached (aliceState keyName) := by
  have start : AuthReached ⟨.empty, fun _ => none⟩ := .start fun _ => rfl
  refine start.commit ?_
  refine .intro ⟨fun name => ?_, fun name => ?_⟩ (by decide) ⟨fun _ => rfl, fun _ => rfl, fun _ => rfl, rfl⟩
  · simp [Authentication.names, Authentication.empty, alice]
  · simp [Authentication.names, Authentication.empty]

/-- Her key is in her file. -/
theorem mirrors_iff_alice : Mirrors (aliceState "laptop") ∧
    (aliceState "laptop").files "/var/run/sshd/alice.keys" = some "ssh-ed25519 AAAAC3 laptop\n" := by
  refine ⟨(mirrors_iff (aliceState_reached "laptop")).mpr ?_, by decide +kernel⟩
  intro user member key listed
  obtain rfl := List.mem_singleton.mp member
  obtain rfl := List.mem_singleton.mp listed
  decide +kernel

/-- The name of a key adds a second key to the file. -/
theorem key_name_adds_key :
    let s := aliceState "laptop\nssh-ed25519 AAAAC4 other"
    AuthReached s ∧ (s.files (keysFile "alice")).map fileLines =
        some ["ssh-ed25519 AAAAC3 laptop", "ssh-ed25519 AAAAC4 other"] ∧ ¬Mirrors s := by
  have lines : ((aliceState "laptop\nssh-ed25519 AAAAC4 other").files (keysFile "alice")).map fileLines =
      some ["ssh-ed25519 AAAAC3 laptop", "ssh-ed25519 AAAAC4 other"] := by decide +kernel
  refine ⟨aliceState_reached _, lines, fun mirrors => ?_⟩
  obtain ⟨text, found, split⟩ := Option.map_eq_some_iff.mp lines
  have one := mirrors.2 _ List.mem_cons_self text found
  exact absurd (congrArg List.length (split.symm.trans one)) (by decide)

end IetfSystem
