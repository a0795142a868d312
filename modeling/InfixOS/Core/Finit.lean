import InfixOS.Posix.CommandLine
import InfixOS.Posix.TwoPhase

/-! The services that confd switches on and off through initctl. -/
namespace Core
open Posix

/-- The service files, and the services that are enabled. -/
structure Finit where
  files : Files String
  enabled : String → Bool

namespace Finit

def available (service : String) : String := "/etc/finit.d/available/" ++ service ++ ".conf"

def set (finit : Finit) (service : String) (on : Bool) : Finit :=
  { finit with enabled := fun other => if other = service then on else finit.enabled other }

/-- `initctl` with its options left out. It succeeds. -/
def initctl (finit : Finit) : List String → Finit
  | ["enable", service] => finit.set service true
  | ["disable", service] => finit.set service false
  | ["delete", service] => { finit.set service false with files := finit.files.remove (available service) }
  | _ => finit

/-- `systemf` of a line that is meant to be an initctl command. What the shell
makes of any other line is left open. -/
def systemf (interpret : String → Finit → Finit) (finit : Finit) (line : String) : Finit :=
  match commandWords line with
  | some ("initctl" :: _ :: args) => finit.initctl args
  | _ => interpret line finit

/-- A service name that the shell takes as it is written. -/
def Literal (name : String) : Prop := name.toList.all isOrdinary = true

instance (name : String) : Decidable (Literal name) := inferInstanceAs (Decidable (_ = _))

theorem systemf_initctl (interpret : String → Finit → Finit) (finit : Finit) (options verb stem : String)
    (literal : Literal name) (options_plain : isPlainWord options.toList = true)
    (verb_plain : isPlainWord verb.toList = true) (stem_plain : isPlainWord stem.toList = true) :
    finit.systemf interpret ("initctl " ++ options ++ " " ++ verb ++ " " ++ stem ++ name) =
      finit.initctl [verb, stem ++ name] := by
  have service : isPlainWord (stem ++ name).toList = true := by
    rw [String.toList_append]
    exact plainWord_append stem_plain literal
  have line : ("initctl " ++ options ++ " " ++ verb ++ " " ++ stem ++ name).toList =
      joinWords ["initctl", options, verb, stem ++ name] := by
    simp [String.toList_append, joinWords]
  have words : commandWords ("initctl " ++ options ++ " " ++ verb ++ " " ++ stem ++ name) =
      some ["initctl", options, verb, stem ++ name] := by
    rw [commandWords, line, readWords_join]
    intro w member
    simp only [List.mem_cons, List.not_mem_nil, or_false] at member
    rcases member with rfl | rfl | rfl | rfl
    · decide
    · exact options_plain
    · exact verb_plain
    · exact service
  simp only [systemf, words]

end Finit
end Core
