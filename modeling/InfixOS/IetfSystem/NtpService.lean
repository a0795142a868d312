import InfixOS.Core.Finit
import InfixOS.IetfSystem.Atomic

/-! The NTP service over any sequence of transactions. The configuration file is
rendered by the CHANGE, the service is switched by the DONE. -/
namespace IetfSystem
open Core Posix

/-- The container `ntp` with its leaf `enabled` and its servers. -/
structure Ntp where
  enabled : Bool
  servers : List NtpServer
  deriving DecidableEq

/-- A transaction that makes this the configuration, which is missing without the
container. Reading the servers may fail. -/
structure NtpTransaction extends Transaction where
  ntp : Option Ntp
  reads_enabled : session.ntpEnabled = ntp.any Ntp.enabled
  reads_servers : session.ntpServers.rc = .ok → session.ntpServers.values = (ntp.map Ntp.servers).getD []

/-- The running configuration, the files, and the services. -/
structure NtpState where
  ntp : Option Ntp
  files : Files Entry
  finit : Finit

def NtpState.change (s : NtpState) (tx : NtpTransaction) : Outcome := changeNtp tx.calls tx.session .change s.files

def NtpState.Commits (s : NtpState) (tx : NtpTransaction) : Prop := (s.change tx).rc = .ok ∧ tx.verdict = .commit

instance (s : NtpState) (tx : NtpTransaction) : Decidable (s.Commits tx) := inferInstanceAs (Decidable (_ ∧ _))

/-- The CHANGE and what follows it. -/
def NtpState.transact (interpret : String → Finit → Finit) (s : NtpState) (tx : NtpTransaction) : NtpState :=
  if (s.change tx).rc = .ok then
    let out := changeNtp tx.calls tx.session tx.verdict.event (s.change tx).files
    ⟨if tx.verdict = .commit then tx.ntp else s.ntp, out.files, out.commands.foldl (Finit.systemf interpret) s.finit⟩
  else { s with files := (s.change tx).files }

def NtpState.run (interpret : String → Finit → Finit) (start : NtpState) (txs : List NtpTransaction) : NtpState :=
  txs.foldl (NtpState.transact interpret) start

/-- The container is present and on. -/
def NtpOn (ntp : Option Ntp) : Prop := ∃ n, ntp = some n ∧ n.enabled = true

/-- One line for each server with an address, in their order. -/
def chronyText (servers : List NtpServer) : String :=
  String.join ((servers.filter fun server => server.address.isSome).map serverLine) ++ chronyTrailer

/-- The service is on exactly if the configuration says so, and then reads the
servers of the configuration. -/
def ServiceFollows (s : NtpState) : Prop :=
  (s.finit.enabled "chronyd" = true ↔ NtpOn s.ntp) ∧
    (s.finit.enabled "chronyd" = true → s.files chronyConf = some (.file (chronyText ((s.ntp.map Ntp.servers).getD []))))

theorem printServers_text (servers : List NtpServer) (i : Nat) (valid : Int) (text : String) :
    (printServers i servers valid text).2 =
      text ++ String.join ((servers.filter fun server => server.address.isSome).map serverLine) := by
  induction servers generalizing i valid text with
  | nil => simp [printServers]
  | cons server rest ih =>
    rw [printServers, ih]
    cases address : server.address with
    | none => simp [serverLine, address]
    | some a => simp [address, String.append_assoc]

/-- An accepted CHANGE has rendered the servers of its configuration. -/
theorem change_accepted (s : NtpState) (tx : NtpTransaction) (ok : (s.change tx).rc = .ok) :
    (s.change tx).files (upcoming chronyConf) =
      some (.file (chronyText ((tx.ntp.map Ntp.servers).getD []))) := by
  unfold NtpState.change changeNtp twoPhase prepareNtp at ok ⊢
  simp only at ok ⊢
  split at ok
  · rename_i failed
    exact absurd ok failed
  · rename_i read
    rw [if_neg read]
    split at ok
    · simp at ok
    · rename_i opens
      rw [if_neg opens]
      split at ok
      · simp at ok
      · rename_i valid
        rw [if_neg valid]
        simp only [Files.write_self, printServers_text, tx.reads_servers (not_not.mp read), chronyText]
        rfl

theorem switch_on (interpret : String → Finit → Finit) (finit : Finit) :
    (["initctl -nbq touch chronyd", "initctl -nbq enable chronyd"].foldl (Finit.systemf interpret) finit).enabled
      "chronyd" = true := by
  have touch : commandWords "initctl -nbq touch chronyd" = some ["initctl", "-nbq", "touch", "chronyd"] := by decide
  have enable : commandWords "initctl -nbq enable chronyd" = some ["initctl", "-nbq", "enable", "chronyd"] := by decide
  simp [Finit.systemf, touch, enable, Finit.initctl, Finit.set]

theorem switch_off (interpret : String → Finit → Finit) (finit : Finit) :
    (["initctl -nbq disable chronyd"].foldl (Finit.systemf interpret) finit).enabled "chronyd" = false := by
  have disable : commandWords "initctl -nbq disable chronyd" = some ["initctl", "-nbq", "disable", "chronyd"] := by
    decide
  simp [Finit.systemf, disable, Finit.initctl, Finit.set]

/-- After the DONE of a transaction the file is that of its configuration, and the
service is on exactly if the configuration says it is off. -/
theorem transact_committed (interpret : String → Finit → Finit) (s : NtpState) (tx : NtpTransaction)
    (commits : s.Commits tx) :
    (s.transact interpret tx).ntp = tx.ntp ∧
    (s.transact interpret tx).files chronyConf = some (.file (chronyText ((tx.ntp.map Ntp.servers).getD []))) ∧
    (s.transact interpret tx).finit.enabled "chronyd" = !tx.session.ntpEnabled := by
  obtain ⟨ok, verdict⟩ := commits
  have prepared := change_accepted s tx ok
  have done := twoPhase_done (prepareNtp tx.calls tx.session) (fun files => (⟨files.commit chronyConf,
    if tx.session.ntpEnabled then ["initctl -nbq disable chronyd"]
    else ["initctl -nbq touch chronyd", "initctl -nbq enable chronyd"], .ok⟩ : Outcome)) prepared
  simp only [NtpState.transact, ok, if_true, verdict, Verdict.event, changeNtp, done]
  refine ⟨trivial, Files.commit_live _ prepared, ?_⟩
  cases tx.session.ntpEnabled with
  | true => exact switch_off interpret s.finit
  | false => exact switch_on interpret s.finit

theorem ntpOn_iff (tx : NtpTransaction) : NtpOn tx.ntp ↔ tx.session.ntpEnabled = true := by
  rw [tx.reads_enabled, NtpOn]
  cases tx.ntp with
  | none => simp
  | some n => simp

/-- After no DONE of any sequence of transactions does the service follow the
configuration: the test of the leaf is the wrong way round. -/
theorem ntp_service_inverted (interpret : String → Finit → Finit) (start : NtpState) (txs : List NtpTransaction)
    (tx : NtpTransaction) (commits : (start.run interpret txs).Commits tx) :
    ¬ServiceFollows (start.run interpret (txs ++ [tx])) ∧
    ((start.run interpret (txs ++ [tx])).finit.enabled "chronyd" = true ↔
      ¬NtpOn (start.run interpret (txs ++ [tx])).ntp) ∧
    (start.run interpret (txs ++ [tx])).files chronyConf =
      some (.file (chronyText (((start.run interpret (txs ++ [tx])).ntp.map Ntp.servers).getD []))) := by
  obtain ⟨ntp, file, service⟩ := transact_committed interpret (start.run interpret txs) tx commits
  have last : start.run interpret (txs ++ [tx]) = (start.run interpret txs).transact interpret tx := by
    rw [NtpState.run, List.foldl_append]
    rfl
  have inverted : ((start.run interpret txs).transact interpret tx).finit.enabled "chronyd" = true ↔
      ¬NtpOn ((start.run interpret txs).transact interpret tx).ntp := by
    rw [ntp, service, ntpOn_iff]
    simp
  rw [last]
  refine ⟨fun follows => ?_, inverted, by rw [file, ntp]⟩
  have same := follows.1.symm.trans inverted
  exact (not_iff_self : ¬(¬_ ↔ _)) same.symm

/-- A transaction in which nothing fails. -/
def ntpTransaction (ntp : Option Ntp) : NtpTransaction where
  session := ⟨none, ntp.any Ntp.enabled, ⟨.ok, (ntp.map Ntp.servers).getD []⟩, none, none, ⟨.ok, []⟩, ⟨.ok, []⟩⟩
  calls := ⟨true, true, true⟩
  verdict := .commit
  ntp := ntp
  reads_enabled := rfl
  reads_servers := fun _ => rfl

def ntpServer : NtpServer := ⟨some "192.168.1.1", some "server", some "123", true, false⟩

/-- Nothing configured, and no service enabled. -/
def ntpIdle : NtpState := ⟨none, fun _ => none, ⟨fun _ => none, fun _ => false⟩⟩

/-- NTP is configured and later removed again. -/
theorem ntp_service_inverted_removed :
    ¬ServiceFollows (ntpIdle.run (fun _ finit => finit)
      ([ntpTransaction (some ⟨true, [ntpServer]⟩)] ++ [ntpTransaction none])) :=
  (ntp_service_inverted (fun _ finit => finit) ntpIdle [ntpTransaction (some ⟨true, [ntpServer]⟩)]
    (ntpTransaction none) (by decide +kernel)).1

/-- A configuration with NTP enabled leaves its service disabled. -/
theorem enabled_ntp_stays_off :
    let s := ntpIdle.run (fun _ finit => finit) [ntpTransaction (some ⟨true, [ntpServer]⟩)]
    NtpOn s.ntp ∧ s.finit.enabled "chronyd" = false ∧ ¬ServiceFollows s := by
  intro s
  have on : NtpOn s.ntp := ⟨⟨true, [ntpServer]⟩, by decide +kernel, rfl⟩
  have off : s.finit.enabled "chronyd" = false := by decide +kernel
  refine ⟨on, off, fun follows => ?_⟩
  simp [follows.1.mpr on] at off

end IetfSystem
