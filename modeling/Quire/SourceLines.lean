import Quire.ByteOffsets
import Quire.JobPipeline
import Quire.LineFraming
import Quire.TextLines

namespace Quire.SourceLines
open ByteOffsets JobPipeline LineFraming TextLines
variable {text front source : List Char}

-- The loop over the characters of a source that stops at the first one of the
-- target line, with its offset and what the source holds from there on.
def lineFrom (target current offset : Nat) : List Char → Option (Nat × List Char)
  | [] => none
  | ch :: rest =>
    if current = target then some (offset,ch :: rest)
    else lineFrom target (if ch = '\n' then current + 1 else current) (offset + ch.utf8Size) rest

theorem byteLength_bytes (chars : List Char) : byteLength chars = bytes chars := by
  have behind : ∀ (chars : List Char) (before : Nat),
      chars.foldl (fun bytes ch => bytes + ch.utf8Size) before = before + bytes chars := by
    intro chars
    induction chars with
    | nil => intro before; rfl
    | cons ch rest ih =>
      intro before
      rw [List.foldl_cons,ih,bytes_cons,Nat.add_assoc]
  rw [byteLength,behind,Nat.zero_add]

theorem spanFrom_line (target current offset : Nat) (source : List Char) : spanFrom target current offset source =
    (lineFrom target current offset source).map fun (i,rest) => ⟨i,bytes (rest.takeWhile (· != '\n'))⟩ := by
  induction source generalizing current offset with
  | nil => rfl
  | cons ch rest ih =>
    rw [spanFrom,lineFrom]
    split
    · rw [byteLength_bytes]
      rfl
    · exact ih _ _

-- No line comes before the one the loop starts in.
theorem lineFrom_passed (passed : target < current) (offset : Nat) (source : List Char) :
    lineFrom target current offset source = none := by
  induction source generalizing current offset with
  | nil => rfl
  | cons ch rest ih =>
    have other : current ≠ target := by omega
    rw [lineFrom,if_neg other]
    apply ih
    split <;> omega

-- What stands in a source from one of its lines on.
def onward (source : List Char) (n : Nat) : List Char := ['\n'].intercalate ((source.splitOn '\n').drop n)

-- The bytes of the lines before one of them, their newlines included.
def start (source : List Char) (n : Nat) : Nat := bytes (frame '\n' ((source.splitOn '\n').take n))

-- The loop knows a line by its characters, so an empty last one is none to it.
theorem lineFrom_onward (n current offset : Nat) (source : List Char) : lineFrom (current + n) current offset source =
    if onward source n = [] then none else some (offset + start source n,onward source n) := by
  induction source generalizing n current offset with
  | nil =>
    have empty : onward [] n = [] := by cases n <;> simp [onward]
    rw [if_pos empty,lineFrom]
  | cons ch rest ih =>
    cases n with
    | zero =>
      have whole : onward (ch :: rest) 0 = ch :: rest := List.intercalate_splitOn '\n'
      rw [whole,if_neg (List.cons_ne_nil _ _),lineFrom,if_pos (Nat.add_zero _).symm]
      rfl
    | succ n =>
      have later : current ≠ current + (n + 1) := by omega
      rw [lineFrom,if_neg later]
      by_cases newline : ch = '\n'
      · subst newline
        have pieces : ('\n' :: rest).splitOn '\n' = [] :: rest.splitOn '\n' := by
          rw [List.splitOn_cons_eq_if_modifyHead,if_pos (beq_self_eq_true '\n')]
        have next : current + (n + 1) = current + 1 + n := by omega
        rw [if_pos rfl,next,ih,onward,onward,start,start,pieces,List.drop_succ_cons,List.take_succ_cons,frame_cons]
        rw [List.nil_append,bytes_cons,Nat.add_assoc]
      · have other : (ch == '\n') = false := by simpa using newline
        obtain ⟨piece,more,pieces⟩ := List.exists_cons_of_ne_nil (List.splitOn_ne_nil '\n' rest)
        have longer : (ch :: rest).splitOn '\n' = (ch :: piece) :: more := by
          rw [List.splitOn_cons_eq_if_modifyHead,other,pieces]
          rfl
        rw [if_neg newline,ih,onward,onward,start,start,longer,pieces,List.drop_succ_cons,List.drop_succ_cons,
          List.take_succ_cons,List.take_succ_cons,frame_cons,frame_cons,List.cons_append,bytes_cons,Nat.add_assoc]

-- A source is the lines before one of its lines and what stands there from it on.
theorem source_onward (found : (source.splitOn '\n')[n]? = some text) : source = frame '\n' ((source.splitOn '\n').take n) ++ onward source n := by
  have joined : ∀ (n : Nat) (pieces : List (List Char)), pieces[n]? = some text →
      ['\n'].intercalate pieces = frame '\n' (pieces.take n) ++ ['\n'].intercalate (pieces.drop n) := by
    intro n
    induction n with
    | zero => intro pieces _; rfl
    | succ n ih =>
      intro pieces found
      cases pieces with
      | nil => cases found
      | cons piece pieces =>
        have more : pieces ≠ [] := by rintro rfl; cases found
        rw [List.intercalate_cons_of_ne_nil more,ih pieces found,List.take_succ_cons,List.drop_succ_cons,frame_cons]
        simp
  rw [onward,← joined n _ found,List.intercalate_splitOn]

theorem onward_line (found : (source.splitOn '\n')[n]? = some text) :
    ∃ rest, onward source n = text ++ rest ∧ (onward source n).takeWhile (· != '\n') = text := by
  obtain ⟨within,same⟩ := List.getElem?_eq_some_iff.mp found
  have pieces : (source.splitOn '\n').drop n = text :: (source.splitOn '\n').drop (n + 1) := by
    rw [← same,List.drop_eq_getElem_cons within]
  have free : ∀ c ∈ text, (c != '\n') = true := by
    intro c member
    have clear := splitOn_free '\n' source text (same ▸ List.getElem_mem within)
    simp only [bne_iff_ne,ne_eq]
    rintro rfl
    exact clear member
  rw [onward,pieces]
  by_cases last : (source.splitOn '\n').drop (n + 1) = []
  · rw [last,List.intercalate_singleton]
    exact ⟨[],by simp,List.takeWhile_eq_self_iff.mpr free⟩
  · rw [List.intercalate_cons_of_ne_nil last]
    refine ⟨'\n' :: ['\n'].intercalate ((source.splitOn '\n').drop (n + 1)),by simp,?_⟩
    rw [List.append_assoc,List.takeWhile_append_of_pos free]
    simp

theorem onward_none (missing : (source.splitOn '\n')[n]? = none) : onward source n = [] := by
  rw [onward,List.drop_eq_nil_of_le (List.getElem?_eq_none_iff.mp missing)]
  rfl

theorem spanForLine_onward (source : String) (n : Nat) : spanForLine source (n + 1) =
    if onward source.toList n = [] then ⟨source.utf8ByteSize,0⟩
    else ⟨start source.toList n,bytes ((onward source.toList n).takeWhile (· != '\n'))⟩ := by
  rw [spanForLine,if_neg (Nat.succ_ne_zero n),spanFrom_line,Nat.add_comm,lineFrom_onward]
  split
  · rfl
  · rw [Nat.zero_add]
    rfl

-- A last line without characters has the span that no line has.
theorem spanForLine_covers (source : String) (n : Nat) :
    spanForLine source (n + 1) = (match (source.toList.splitOn '\n')[n]? with
      | some text => ⟨bytes (frame '\n' ((source.toList.splitOn '\n').take n)),bytes text⟩
      | none => ⟨source.utf8ByteSize,0⟩) ∧
    Boundary (spanForLine source (n + 1)).offset source.toList ∧
    Boundary ((spanForLine source (n + 1)).offset + (spanForLine source (n + 1)).length) source.toList := by
  have ended : Boundary (bytes source.toList) source.toList := by simpa using boundary_append source.toList []
  cases found : (source.toList.splitOn '\n')[n]? with
  | none =>
    rw [spanForLine_onward,if_pos (onward_none found),bytes_string]
    exact ⟨rfl,ended,ended⟩
  | some text =>
    obtain ⟨rest,shape,line⟩ := onward_line found
    have whole := source_onward found
    have same : spanForLine source (n + 1) = ⟨start source.toList n,bytes text⟩ := by
      rw [spanForLine_onward,line]
      split
      · rename_i empty
        have short : text = [] := (List.append_eq_nil_iff.mp (shape.symm.trans empty)).1
        rw [empty,List.append_nil] at whole
        rw [bytes_string,short,start,← whole]
        rfl
      · rfl
    have opens := boundary_append (frame '\n' ((source.toList.splitOn '\n').take n)) (text ++ rest)
    have ends := boundary_append (frame '\n' ((source.toList.splitOn '\n').take n) ++ text) rest
    rw [List.append_assoc,bytes_append] at ends
    rw [← shape,← whole] at opens ends
    rw [same]
    exact ⟨rfl,opens,ends⟩

-- An empty line, a line of two bytes more than characters and a last line without a newline.
example : (spanForLine "a\n\nüß\nc" 2,spanForLine "a\n\nüß\nc" 3,spanForLine "a\n\nüß\nc" 4) = (⟨2,0⟩,⟨3,4⟩,⟨8,1⟩) := by decide

end Quire.SourceLines
