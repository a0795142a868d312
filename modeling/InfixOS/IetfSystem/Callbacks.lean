import InfixOS.Core.Sysrepo
import InfixOS.Posix.CommandLine
import InfixOS.Posix.TwoPhase

/-! The change callbacks of src/confd/src/confd/ietf-system.c that replace a
generated file in two phases: change_clock, change_ntp and change_dns. The
session is what they read from it, the files are those they name. -/
namespace IetfSystem
open Core Posix

inductive Entry where
  | file (text : String)
  | link (target : String)
  deriving DecidableEq, Repr

/-- The result of sr_get_items. -/
structure Items (α : Type) where
  rc : SrError
  values : List α
  deriving DecidableEq, Repr

/-- One `ntp/server`: its leaves as srx_get_str and srx_enabled return them. -/
structure NtpServer where
  address : Option String
  associationType : Option String
  port : Option String
  iburst : Bool
  prefer : Bool
  deriving DecidableEq, Repr

structure Session where
  timezoneName : Option String
  ntpEnabled : Bool
  ntpServers : Items NtpServer
  timeout : Option (Fin 256)
  attempts : Option (Fin 256)
  search : Items String
  /-- `udp-and-tcp/address` of each server. -/
  dnsServers : Items (Option String)

/-- What the system calls of one callback report. -/
structure Calls where
  links : Bool
  opens : Bool
  closes : Bool
  deriving DecidableEq, Repr

/-- The part of the host the callbacks do not fix: what sh does with a line that
is more than its words, and the exit statuses of the other commands. -/
structure Host where
  interpret : String → Files Entry → Files Entry × Nat
  status : String → Nat

structure Outcome where
  files : Files Entry
  commands : List String
  rc : SrError

/-- `ln -s target path`. -/
def lnS (calls : Calls) (files : Files Entry) (target path : String) : Files Entry × Nat :=
  if calls.links ∧ files path = none then (files.write path (.link target), 0) else (files, 1)

/-- systemf of a line that is meant to be an `ln -s`. -/
def systemLn (host : Host) (calls : Calls) (line : String) (files : Files Entry) :
    Files Entry × Nat :=
  match commandWords line with
  | some ["ln", "-s", target, path] => lnS calls files target path
  | _ => host.interpret line files

def timezoneConf : String := "/etc/timezone"

def localtime : String := "/etc/localtime"

def zoneinfo : String := "/usr/share/zoneinfo/"

def linkLine (timezone : String) : String :=
  "ln -s /usr/share/zoneinfo/" ++ timezone ++ " /etc/localtime+"

/-- `writesf(str, "w", path)`. -/
def writesf (calls : Calls) (files : Files Entry) (path str : String) : Files Entry × Bool :=
  if calls.opens then (files.write path (.file (str ++ "\n")), calls.closes) else (files, false)

def prepareClock (host : Host) (calls : Calls) (session : Session) (files : Files Entry) : Outcome :=
  match session.timezoneName with
  | none => ⟨files, [], .validationFailed⟩
  | some timezone =>
    match systemLn host calls (linkLine timezone) (files.remove (upcoming localtime)) with
    | (linked, 0) =>
      match writesf calls linked (upcoming timezoneConf) timezone with
      | (written, true) => ⟨written, [], .ok⟩
      | (written, false) => ⟨written, [], .sys⟩
    | (linked, _ + 1) => ⟨linked, [], .validationFailed⟩

/-- The frame the three callbacks share: `prepare` on CHANGE, the upcoming file
removed on ABORT, and `finish` on a DONE that finds it. -/
def twoPhase (conf : String) (prepare : Files Entry → Outcome) (finish : Files Entry → Outcome)
    (event : SrEvent) (files : Files Entry) : Outcome :=
  match event with
  | .enabled | .change => prepare files
  | .abort => ⟨files.remove (upcoming conf), [], .ok⟩
  | .done => if files.present (upcoming conf) then finish files else ⟨files, [], .ok⟩
  | .update | .rpc => ⟨files, [], .ok⟩

/-- Two files are replaced; ABORT removes only one of the prepared ones. -/
def changeClock (host : Host) (calls : Calls) (session : Session) : SrEvent → Files Entry → Outcome :=
  twoPhase timezoneConf (prepareClock host calls session) fun files =>
    ⟨(files.commit timezoneConf).commit localtime, [], .ok⟩

def chronyConf : String := "/etc/chrony.conf"

/-- What one pass of the loop prints for a server. -/
def serverLine (server : NtpServer) : String :=
  match server.address with
  | none => ""
  | some address =>
    server.associationType.getD "server" ++ " " ++ address ++
      (match server.port with | some port => " port " ++ port | none => "") ++
      (if server.iburst then " iburst" else "") ++ (if server.prefer then " prefer" else "") ++ "\n"

/-- The loop over the servers, from the counter and the text so far. -/
def printServers : Nat → List NtpServer → Int → String → Int × String
  | _, [], valid, text => (valid, text)
  | i, server :: rest, valid, text =>
    let valid := if i = 0 then 0 else valid
    printServers (i + 1) rest (if server.address.isSome then valid + 1 else valid)
      (text ++ serverLine server)

def chronyTrailer : String :=
  "driftfile /var/lib/chrony/drift\n" ++ "makestep 1.0 3\n" ++ "maxupdateskew 100.0\n" ++
    "dumpdir /var/lib/chrony\n" ++ "rtcfile /var/lib/chrony/rtc\n"

def prepareNtp (calls : Calls) (session : Session) (files : Files Entry) : Outcome :=
  if session.ntpServers.rc ≠ .ok then
    ⟨files.remove (upcoming chronyConf), [], session.ntpServers.rc⟩
  else if calls.opens = false then ⟨files, [], .sys⟩
  else
    let (valid, text) := printServers 0 session.ntpServers.values (-1) ""
    let written := files.write (upcoming chronyConf) (.file (text ++ chronyTrailer))
    if valid = 0 then ⟨written.remove (upcoming chronyConf), [], .validationFailed⟩
    else ⟨written, [], .ok⟩

/-- The test of `ntp/enabled` is the source's: the service is disabled when it
is set. -/
def changeNtp (calls : Calls) (session : Session) : SrEvent → Files Entry → Outcome :=
  twoPhase chronyConf (prepareNtp calls session) fun files =>
    ⟨files.commit chronyConf,
      if session.ntpEnabled then ["initctl -nbq disable chronyd"]
      else ["initctl -nbq touch chronyd", "initctl -nbq enable chronyd"], .ok⟩

def resolvConf : String := "/etc/resolv.conf.head"

/-- Both leaves are read into `timeout`; `attempts` keeps its initial zero. -/
def optionsLine (session : Session) : String :=
  let timeout : Nat := match session.timeout with | some n => n.val | none => 0
  let timeout : Nat := match session.attempts with | some n => n.val | none => timeout
  let attempts : Nat := 0
  if timeout ≠ 0 ∨ attempts ≠ 0 then
    "options" ++ (if timeout ≠ 0 then " timeout:" ++ toString timeout else "") ++
      (if attempts ≠ 0 then " attempts:" ++ toString attempts ++ " " else "") ++ "\n"
  else ""

def searchLine (domains : List String) : String :=
  if domains = [] then "" else "search " ++ String.join (domains.map (· ++ " ")) ++ "\n"

def nameserverLine : Option String → String
  | none => ""
  | some address => "nameserver " ++ address ++ "\n"

/-- When the file cannot be opened the source frees two variables it has not
set; this branch only returns. -/
def prepareDns (calls : Calls) (session : Session) (files : Files Entry) : Outcome :=
  if calls.opens = false then ⟨files, [], .sys⟩
  else
    let written (text : String) := files.write (upcoming resolvConf) (.file text)
    let options := optionsLine session
    if session.search.rc ≠ .ok then
      ⟨(written options).remove (upcoming resolvConf), [], session.search.rc⟩
    else
      let searched := options ++ searchLine session.search.values
      if session.dnsServers.rc ≠ .ok then
        ⟨(written searched).remove (upcoming resolvConf), [], session.dnsServers.rc⟩
      else
        ⟨written (searched ++ String.join (session.dnsServers.values.map nameserverLine)), [], .ok⟩

def changeDns (host : Host) (calls : Calls) (session : Session) : SrEvent → Files Entry → Outcome :=
  twoPhase resolvConf (prepareDns calls session) fun files =>
    let booting := host.status "initctl -bq cond get hook/sys/up" ≠ 0
    ⟨files.commit resolvConf,
      "initctl -bq cond get hook/sys/up" :: if booting then [] else ["resolvconf -u"], .ok⟩

end IetfSystem
