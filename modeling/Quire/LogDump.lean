import Quire.RecordedOutput
import Quire.TextLines

namespace Quire.LogDump
open Text TextLines LineFraming Primitives CiRuntime RecordedOutput
variable {timestamp : String} {output : ShOutput} {framed : Framed Char}

-- What `dump` prints for one file, line by line.
def dumpFile (contents : String) : List String :=
  (lines contents).map fun line => (splitn line 4 ' ').getD 3 line

theorem framedLog_shape (member : framed ∈ framedLog output timestamp) : '\n' ∉ framed.line ∧
    ∃ stream, ' ' ∉ stream ∧ '\n' ∉ stream ∧ framed.before = timestamp.toList ++ ' ' :: (stream ++ [' ','F',' ']) := by
  rcases List.mem_append.mp member with out | err
  · obtain ⟨line,listed,rfl⟩ := List.mem_map.mp out
    exact ⟨lines_free _ line listed,"stdout".toList,by decide,by decide,by simp⟩
  · obtain ⟨line,listed,rfl⟩ := List.mem_map.mp err
    exact ⟨lines_free _ line listed,"stderr".toList,by decide,by decide,by simp⟩

theorem framedLog_lines (output : ShOutput) (timestamp : String) :
    (framedLog output timestamp).map Framed.line = (lines output.stdout ++ lines output.stderr).map String.toList := by
  simp [framedLog,Function.comp_def]

-- The last of the four fields of a line is the output, with blanks of its own.
theorem framedLog_field (spaceless : ' ' ∉ timestamp.toList) (listed : framed ∈ framedLog output timestamp) (line : String) :
    (splitn (String.ofList (chomp (framed.before ++ framed.line))) 4 ' ').getD 3 line = String.ofList (chomp framed.line) := by
  obtain ⟨_,stream,word,_,before⟩ := framedLog_shape listed
  have ended : framed.before = (timestamp.toList ++ ' ' :: (stream ++ [' ','F'])) ++ [' '] := by simp [before]
  have blank : framed.before.getLast? ≠ some '\r' := by
    rw [ended,List.getLast?_concat]
    decide
  have fields : framed.before ++ chomp framed.line =
      timestamp.toList ++ ' ' :: (stream ++ ' ' :: (['F'] ++ ' ' :: chomp framed.line)) := by simp [before]
  rw [chomp_behind blank,splitn,String.toList_ofList,fields,splitnChars_field spaceless 2,splitnChars_field word 1,
    splitnChars_field (by decide) 0]
  rfl

-- Reading the file takes a return off the end of every line once more.
theorem dumpFile_chomped (spaceless : ' ' ∉ timestamp.toList) (single : '\n' ∉ timestamp.toList) (output : ShOutput) :
    dumpFile (String.ofList (logText output timestamp)) =
      (lines output.stdout ++ lines output.stderr).map fun line => String.ofList (chomp line.toList) := by
  have free : ∀ text ∈ (framedLog output timestamp).map fun framed => framed.before ++ framed.line, '\n' ∉ text := by
    intro text member
    obtain ⟨framed,listed,rfl⟩ := List.mem_map.mp member
    obtain ⟨clear,stream,_,clearStream,before⟩ := framedLog_shape listed
    simp [before,clear,clearStream,single]
  have texts : (lines output.stdout ++ lines output.stderr).map (fun line => String.ofList (chomp line.toList)) =
      ((framedLog output timestamp).map Framed.line).map fun text => String.ofList (chomp text) := by
    rw [framedLog_lines,List.map_map]
    rfl
  rw [dumpFile,lines,String.toList_ofList,logText_framed,frame,linesFrom_chomped _ free,texts,List.map_map,List.map_map,
    List.map_map,List.map_map]
  refine List.map_congr_left fun framed listed => ?_
  simp only [Function.comp_apply]
  exact framedLog_field spaceless listed _

-- A return at the end of a line is part of what the process wrote, and not shown.
theorem dumpFile_reads (timestamp : String) (output : ShOutput) (spaceless : ' ' ∉ timestamp.toList)
    (single : '\n' ∉ timestamp.toList) :
    dumpFile (String.ofList (logText output timestamp)) = lines output.stdout ++ lines output.stderr ↔
      ∀ line ∈ lines output.stdout ++ lines output.stderr, line.toList.getLast? ≠ some '\r' := by
  rw [dumpFile_chomped spaceless single]
  conv_lhs => rhs; rw [← List.map_id (lines output.stdout ++ lines output.stderr)]
  rw [List.map_inj_left]
  refine forall₂_congr fun line _ => ?_
  rw [← chomp_eq]
  constructor
  · intro same
    simpa using congrArg String.toList same
  · intro kept
    rw [kept,String.ofList_toList]
    rfl

theorem dumpFile_reads_plain : dumpFile (String.ofList (logText ⟨0,"a  b\n\n","2026 stdout F c","run"⟩ "2026-05-06T12:00:00Z")) =
      lines "a  b\n\n" ++ lines "2026 stdout F c" ↔
    ∀ line ∈ lines "a  b\n\n" ++ lines "2026 stdout F c", line.toList.getLast? ≠ some '\r' :=
  dumpFile_reads "2026-05-06T12:00:00Z" ⟨0,"a  b\n\n","2026 stdout F c","run"⟩ (by decide) (by decide)

-- A progress bar that rewinds its last line.
theorem dumpFile_rewound : dumpFile (String.ofList (logText ⟨0,"50%\r","","run"⟩ "2026-05-06T12:00:00Z")) = ["50%"] ∧
    ["50%"] ≠ lines "50%\r" ++ lines "" := by decide

end Quire.LogDump
