import InfixOS.NetTool.Effects

/-! What `pipeit` makes of the bytes of an action file. It reads pieces of at most 255
bytes, as strings that end at a NUL, and writes a newline after each. -/
namespace NetTool
open Posix

/-- The string in a buffer. -/
def cString (part : Text) : Text := part.takeWhile (· ≠ '\x00')

/-- The lines of a file as they are, with their newlines. -/
def rawLines (text : Text) : List Text := cut (fun _ => false) [] text

/-- The bytes that `pipeit` writes for a file. -/
def passed (text : Text) : Text :=
  (cut (fun part => part.length + 1 = 256) [] text).flatMap fun part => chomp (cString part) ++ ['\n']

theorem cString_plain (plain : '\x00' ∉ part) : cString part = part := by
  refine List.takeWhile_eq_self_iff.mpr fun c member => ?_
  simp only [decide_eq_true_eq]
  rintro rfl
  exact plain member

theorem newline_cString {part : Text} (plain : '\n' ∉ part.dropLast) : '\n' ∉ (cString part).dropLast := by
  obtain ⟨rest, whole⟩ : cString part <+: part := List.takeWhile_prefix _
  rw [← whole] at plain
  by_cases nothing : rest = []
  · rwa [nothing, List.append_nil] at plain
  · rw [List.dropLast_append_of_ne_nil nothing] at plain
    exact fun member => plain (List.mem_append_left _ (List.dropLast_subset _ member))

theorem lines_passed (text : Text) :
    lines (passed text) =
      (cut (fun part => part.length + 1 = 256) [] text).map fun part => String.ofList (chomp (cString part)) := by
  have written : passed text = unlines
      ((cut (fun part => part.length + 1 = 256) [] text).map fun part => String.ofList (chomp (cString part))) := by
    simp [passed, unlines, List.flatMap_map]
  rw [written, lines_unlines]
  intro name member
  obtain ⟨part, piece, rfl⟩ := List.mem_map.mp member
  rw [String.toList_ofList]
  exact newline_chomp (newline_cString (cut_piece (by simp) part piece).2)

/-- Without a NUL these are the lines of the commands that are put on a pipe. -/
theorem lines_passed_eq (plain : '\x00' ∉ file.text) (fine : file.fault ≠ some .open) (piped : pipep action.name = some pipe)
    (owner : String) : lines (passed file.text) = (commandsOf action owner (.file file)).map Command.line := by
  rw [lines_passed, commandsOf, if_neg (by simp [piped]), if_neg fine, List.map_map, fgetsLines, List.map_map]
  refine List.map_congr_left fun part piece => ?_
  have inside : '\x00' ∉ part := by
    intro member
    have whole := cut_flatten (fun part => part.length + 1 = 256) [] file.text
    rw [List.nil_append] at whole
    exact plain (whole ▸ List.mem_flatten.mpr ⟨part, piece, member⟩)
  rw [cString_plain inside]
  rfl

/-- A file is passed on line by line exactly if it has no NUL and each of its lines fits
into the buffer together with its newline. -/
theorem passed_lines_iff (text : Text) :
    lines (passed text) = lines text ↔ '\x00' ∉ text ∧ ∀ line ∈ rawLines text, line.length < 256 := by
  have whole := cut_flatten (fun _ => false) [] text
  rw [List.nil_append] at whole
  constructor
  · intro same
    constructor
    · intro nul
      rw [← whole] at nul
      obtain ⟨part, piece, member⟩ := List.mem_flatten.mp nul
      have kept : '\x00' ∈ chomp part := by
        rw [chomp]
        split
        · rename_i last
          obtain ⟨front, rfl⟩ := List.getLast?_eq_some_iff.mp last
          simpa using member
        · exact member
      have listed : String.ofList (chomp part) ∈ lines (passed text) := by
        rw [same]
        exact List.mem_map_of_mem piece
      rw [lines_passed] at listed
      obtain ⟨other, _, equal⟩ := List.mem_map.mp listed
      have text : chomp (cString other) = chomp part := by
        simpa using congrArg String.toList equal
      rw [← text] at kept
      have inside : '\x00' ∈ cString other := by
        rw [chomp] at kept
        split at kept
        · exact List.dropLast_subset _ kept
        · exact kept
      simpa using List.mem_takeWhile_imp inside
    · have lengths := congrArg List.length same
      rw [lines_passed, lines, List.length_map, List.length_map] at lengths
      exact (cut_length_eq_iff (by decide) text).mp lengths
  · rintro ⟨plain, short⟩
    rw [lines_passed, lines, cut_eq_of_short short]
    refine List.map_congr_left fun part piece => ?_
    have inside : '\x00' ∉ part := fun member => plain (whole ▸ List.mem_flatten.mpr ⟨part, piece, member⟩)
    rw [cString_plain inside]

/-- A line of 300 characters, as one command, becomes two. -/
theorem long_line_split :
    let text := List.replicate 300 'a' ++ ['\n']
    lines text = [String.ofList (List.replicate 300 'a')] ∧
    lines (passed text) = [String.ofList (List.replicate 255 'a'), String.ofList (List.replicate 45 'a')] ∧
    lines (passed text) ≠ lines text := by
  intro text
  have whole : lines text = [String.ofList (List.replicate 300 'a')] := by decide +kernel
  have pieces : lines (passed text) = [String.ofList (List.replicate 255 'a'), String.ofList (List.replicate 45 'a')] := by
    decide +kernel
  refine ⟨whole, pieces, fun same => ?_⟩
  rw [whole, pieces] at same
  exact absurd (congrArg List.length same) (by decide)

end NetTool
