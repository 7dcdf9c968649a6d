import Quire.LogFields
import Quire.RepoPaths

namespace Quire.CommitPage
open Text TextLines Traced GitViews GitArguments LogFields

def NoBlank (word : String) : Prop := word ≠ "" ∧ ∀ c ∈ word.toList, isWhitespace c = false

instance : DecidablePred NoBlank := fun word =>
  decidable_of_iff (word ≠ "" ∧ (word.toList.all fun c => !isWhitespace c) = true) (by simp [NoBlank])

-- A commit as git keeps it: the subject, the author and the address are any
-- single lines, the body any text, the time any i64.
structure Commit where
  sha : String
  parents : List String
  subject : String
  body : String
  author : String
  email : String
  seconds : Int
  hashes : NoBlank sha ∧ ∀ parent ∈ parents, NoBlank parent
  single : '\n' ∉ subject.toList ∧ '\n' ∉ author.toList ∧ '\n' ∉ email.toList
  stored : i64Min ≤ seconds ∧ seconds ≤ i64Max

-- What `git log -1` prints for the format of the page.
def Commit.printed (self : Commit) : String :=
  self.sha ++ "\n" ++ join " " self.parents ++ "\n" ++ self.subject ++ "\n" ++ self.body ++ "\n" ++ self.author ++ "\n" ++
    self.email ++ "\n" ++ toString self.seconds ++ "\n"

def withoutReturns (s : String) : List Char := s.toList.filter (· ≠ '\r')

structure Recovered (info : CommitInfo) (commit : Commit) : Prop where
  sha : info.sha = commit.sha
  parents : info.parents.map (fun parent => parent.id.sha) = commit.parents
  subject : info.subject = commit.subject
  body : withoutReturns info.body = withoutReturns commit.body
  author : info.author = commit.author
  email : info.email = commit.email
  time : info.timestampMs = commit.seconds * 1000

def Returned (line : String) : Prop := line.toList.getLast? = some '\r'

instance : DecidablePred Returned := fun line => inferInstanceAs (Decidable (line.toList.getLast? = some '\r'))

-- The lines of a terminated text, joined again, differ from it in returns only.
theorem joined_lines (reversed body : List Char) :
    (['\n'].intercalate (linesFrom reversed (body ++ ['\n']))).filter (· ≠ '\r') =
      (reversed.reverse ++ body).filter (· ≠ '\r') := by
  have stripped : ∀ reversed : List Char, (stripReturn reversed).filter (· ≠ '\r') = reversed.reverse.filter (· ≠ '\r') := by
    intro reversed
    unfold stripReturn
    split <;> simp
  induction body generalizing reversed with
  | nil =>
    rw [List.append_nil,← stripped]
    simp [linesFrom]
  | cons c rest ih =>
    rw [List.cons_append,linesFrom]
    split
    · rename_i newline
      have some : linesFrom [] (rest ++ ['\n']) ≠ [] := fun none => by
        have empty := linesFrom_empty none
        simp at empty
      rw [List.intercalate_cons_of_ne_nil some,List.filter_append,List.filter_append,stripped,ih [],newline]
      simp
    · rw [ih (c :: reversed)]
      simp

theorem join_blank (word second : String) (rest : List String) :
    (join " " (word :: second :: rest)).toList = word.toList ++ ' ' :: (join " " (second :: rest)).toList := by
  simp [join]

theorem split_words (words : List String) (plain : ∀ word ∈ words, NoBlank word) :
    splitWhitespace (join " " words) = words := by
  induction words with
  | nil => rfl
  | cons word rest ih =>
    obtain ⟨⟨full,solid⟩,later⟩ := List.forall_mem_cons.mp plain
    have some : word.toList ≠ [] := fun empty => full (String.toList_eq_nil_iff.mp empty)
    cases rest with
    | nil => rw [join,splitWhitespace,wordsFrom_last solid some]; simp
    | cons second rest =>
      have behind := ih later
      rw [splitWhitespace] at behind
      rw [splitWhitespace,join_blank,wordsFrom_word solid some,List.map_cons,behind]
      simp

theorem digit_solid {c : Char} (digit : c.isDigit = true) : isWhitespace c = false := by
  have range : 48 ≤ c.toNat ∧ c.toNat ≤ 57 := by
    simpa [Char.isDigit,UInt32.le_iff_toNat_le] using digit
  simp only [isWhitespace,Bool.or_eq_false_iff,Bool.and_eq_false_iff,decide_eq_false_iff_not,beq_eq_false_iff_ne]
  omega

theorem parse_printed (n : Int) (stored : i64Min ≤ n ∧ n ≤ i64Max) : parseI64 (toString n) = some n := by
  rw [Int.toString_eq_repr,Int.repr_eq_if]
  split
  · rename_i natural
    have read := digits_repr n.toNat
    obtain ⟨_,digit⟩ := numeral_digits n.toNat
    unfold parseI64
    split
    · rename_i text
      cases digit '-' (by rw [text]; exact List.mem_cons_self)
    · rename_i text
      cases digit '+' (by rw [text]; exact List.mem_cons_self)
    · rw [read]
      simp [Option.filter,Int.toNat_of_nonneg natural,stored]
  · rename_i negative
    have read := digits_repr (-n).toNat
    have back : -(((-n).toNat : Nat) : Int) = n := by omega
    have text : ("-" ++ (-n).toNat.repr).toList = '-' :: (-n).toNat.repr.toList := by simp
    generalize (-n).toNat = k at read back text
    unfold parseI64
    rw [text]
    simp only [read]
    simp [Option.filter,back,stored]

theorem printed_time (n : Int) : (toString n).toList ≠ [] ∧ '\n' ∉ (toString n).toList ∧
    ∀ c ∈ (toString n).toList.getLast?, isWhitespace c = false := by
  have kept : ∀ front : List Char, '\n' ∉ front → ∀ k : Nat, front ++ k.repr.toList ≠ [] ∧ '\n' ∉ front ++ k.repr.toList ∧
      ∀ c ∈ (front ++ k.repr.toList).getLast?, isWhitespace c = false := by
    intro front free k
    obtain ⟨some,digit⟩ := numeral_digits k
    refine ⟨by simp,?_,?_⟩
    · intro inside
      rcases List.mem_append.mp inside with before | within
      · exact free before
      · cases digit '\n' within
    · intro c last
      rw [List.getLast?_append_of_ne_nil _ some] at last
      exact digit_solid (digit c (List.mem_of_mem_getLast? last))
  rw [Int.toString_eq_repr,Int.repr_eq_if]
  split
  · exact kept [] List.not_mem_nil n.toNat
  · have text : ("-" ++ (-n).toNat.repr).toList = ['-'] ++ (-n).toNat.repr.toList := by simp
    rw [text]
    exact kept ['-'] (by decide) (-n).toNat

-- The lines of what git prints, by the field each comes from.
def pageLines (commit : Commit) : List (List Char) :=
  [commit.sha.toList,(join " " commit.parents).toList,chomp commit.subject.toList] ++
    linesFrom [] (commit.body.toList ++ ['\n']) ++
      [chomp commit.author.toList,chomp commit.email.toList,(toString commit.seconds).toList]

theorem noBlank_solid {word : String} (plain : NoBlank word) :
    word.toList ≠ [] ∧ Solid word.toList ∧ '\n' ∉ word.toList := by
  obtain ⟨full,solid⟩ := plain
  refine ⟨fun empty => full (String.toList_eq_nil_iff.mp empty),⟨?_,?_⟩,?_⟩
  · exact fun c first => solid c (List.mem_of_mem_head? first)
  · exact fun c last => solid c (List.mem_of_mem_getLast? last)
  · exact fun inside => absurd (solid '\n' inside) (by decide)

theorem join_parents (words : List String) (plain : ∀ word ∈ words, NoBlank word) :
    chomp (join " " words).toList = (join " " words).toList ∧ '\n' ∉ (join " " words).toList := by
  rw [chomp_eq]
  induction words with
  | nil => decide
  | cons word rest ih =>
    obtain ⟨first,later⟩ := List.forall_mem_cons.mp plain
    obtain ⟨_,solid,free⟩ := noBlank_solid first
    cases rest with
    | nil =>
      refine ⟨fun last => ?_,free⟩
      exact absurd (solid.2 '\r' last) (by decide)
    | cons second rest =>
      obtain ⟨ending,clear⟩ := ih later
      rw [join_blank]
      constructor
      · intro last
        rw [List.getLast?_append_of_ne_nil _ (List.cons_ne_nil _ _),List.getLast?_cons] at last
        cases inner : (join " " (second :: rest)).toList.getLast? with
        | none => simp [inner] at last
        | some c =>
          rw [inner] at last ending
          exact ending last
      · simp [free,clear]

theorem printed_lines (commit : Commit) : lines (trim commit.printed) = (pageLines commit).map String.ofList := by
  obtain ⟨hash,parents⟩ := commit.hashes
  obtain ⟨some,solid,shaFree⟩ := noBlank_solid hash
  obtain ⟨parentsKept,parentsFree⟩ := join_parents commit.parents parents
  obtain ⟨subjectFree,authorFree,emailFree⟩ := commit.single
  obtain ⟨timeFull,timeFree,timeEnd⟩ := printed_time commit.seconds
  have shaKept : chomp commit.sha.toList = commit.sha.toList := chomp_eq.mpr fun last =>
    absurd (solid.2 '\r' last) (by decide)
  have last : linesFrom [] (toString commit.seconds).toList = [(toString commit.seconds).toList] :=
    linesFrom_free timeFree timeFull
  let front := commit.sha.toList ++ '\n' :: ((join " " commit.parents).toList ++ '\n' :: (commit.subject.toList ++ '\n' ::
    (commit.body.toList ++ '\n' :: (commit.author.toList ++ '\n' :: (commit.email.toList ++ ['\n'])))))
  have text : commit.printed.toList = front ++ (toString commit.seconds).toList ++ ['\n'] := by
    simp only [Commit.printed,String.toList_append,front]
    simp
  have trimmed : Solid (front ++ (toString commit.seconds).toList) := by
    constructor
    · rw [List.append_assoc,List.head?_append_of_ne_nil _ some]
      exact solid.1
    · rw [List.getLast?_append_of_ne_nil _ timeFull]
      exact timeEnd
  rw [lines,trim,String.toList_ofList,text,trimChars_tail blank_newline,trimChars_solid trimmed]
  simp only [front,List.append_assoc,List.cons_append,List.nil_append]
  rw [linesFrom_line shaFree,linesFrom_line parentsFree,linesFrom_line subjectFree,linesFrom_text,linesFrom_line authorFree,
    linesFrom_line emailFree,last,shaKept,parentsKept]
  simp [pageLines]

-- The product fits for these times and for no other.
theorem product_fits (n : Int) : (n * 1000).bmod (u64Max + 1) = n * 1000 ↔ -9223372036854775 ≤ n ∧ n ≤ 9223372036854775 := by
  have size : u64Max + 1 = 18446744073709551616 := by decide
  rw [size]
  constructor
  · intro same
    have above := Int.bmod_lt (x := n * 1000) (m := 18446744073709551616) (by decide)
    have below := Int.le_bmod (x := n * 1000) (m := 18446744073709551616) (by decide)
    rw [same] at above below
    omega
  · intro range
    apply Int.bmod_eq_of_le
    · omega
    · omega

theorem ofList_chomp (s : String) : String.ofList (chomp s.toList) = s ↔ ¬ Returned s := by
  rw [ofList_eq,chomp_eq]
  rfl

theorem body_read (body : String) :
    withoutReturns (join "\n" ((linesFrom [] (body.toList ++ ['\n'])).map String.ofList)) = withoutReturns body := by
  have plain : String.toList ∘ String.ofList = id := funext fun chars => String.toList_ofList
  rw [withoutReturns,RepoPaths.join_toList,List.map_map,plain,List.map_id]
  exact joined_lines [] body.toList

-- The fields behind the body are counted from the end.
theorem tail_getD (body tail : List String) (back : Nat) : (body ++ tail).getD (body.length + back) "" = tail.getD back "" := by
  rw [List.getD_eq_getElem?_getD,List.getD_eq_getElem?_getD,List.getElem?_append_right (Nat.le_add_right _ _),
    Nat.add_sub_cancel_left]

theorem commitFields_shape (git : Git) (repo fullSha : String) {info sha parents subject author email time : String} {body : List String}
    (shape : lines info = sha :: parents :: subject :: (body ++ [author,email,time])) (read : parseI64 time = some secs) :
    ∃ diff changeId, (commitFields git repo fullSha info).value = some {
      sha := sha
      author := author
      email := email
      timestampMs := (secs * 1000).bmod (u64Max + 1)
      subject := subject
      body := join "\n" body
      parents := (splitWhitespace parents).map fun p => (commitParent git repo p).value
      diff := diff
      changeId := changeId } := by
  have size : (body ++ [author,email,time]).length = body.length + 3 := by simp
  have last : (body ++ [author,email,time]).getD (body.length + 3 - 1) "" = time := tail_getD body _ 2
  have first : (body ++ [author,email,time]).getD (body.length + 3 - 3) "" = author := tail_getD body _ 0
  have middle : (body ++ [author,email,time]).getD (body.length + 3 - 2) "" = email := tail_getD body _ 1
  have front : (body ++ [author,email,time]).take (body.length + 3 - 3) = body := by simp
  unfold commitFields
  rw [shape]
  simp only [List.headD_cons,List.getD_cons_succ,List.getD_cons_zero,List.drop_succ_cons,List.drop_zero,size,last,first,
    middle,front,read]
  rw [if_neg (by omega)]
  simp only [bind_value,pure_value,each_value]
  exact ⟨_,_,rfl⟩

-- The page of a commit, when git prints that commit.
theorem commitView_value (git : Git) (repo sha : String) (commit : Commit)
    (printed : git ["log","-1",commitFormat,(answer git ["rev-parse",sha]).getD sha] = some commit.printed) :
    ∃ diff changeId, (commitView git repo sha).value = some {
      sha := commit.sha
      author := String.ofList (chomp commit.author.toList)
      email := String.ofList (chomp commit.email.toList)
      timestampMs := (commit.seconds * 1000).bmod (u64Max + 1)
      subject := String.ofList (chomp commit.subject.toList)
      body := join "\n" ((linesFrom [] (commit.body.toList ++ ['\n'])).map String.ofList)
      parents := (splitWhitespace (join " " commit.parents)).map fun p => (commitParent git repo p).value
      diff := diff
      changeId := changeId } := by
  have shape := printed_lines commit
  have full : trim commit.printed ≠ "" := by
    intro empty
    rw [empty] at shape
    simp [pageLines,lines,linesFrom] at shape
  have answered := answer_full printed full
  have pieces : lines (trim commit.printed) = commit.sha :: join " " commit.parents :: String.ofList (chomp commit.subject.toList) ::
      ((linesFrom [] (commit.body.toList ++ ['\n'])).map String.ofList ++ [String.ofList (chomp commit.author.toList),
        String.ofList (chomp commit.email.toList),toString commit.seconds]) := by
    rw [shape]
    simp [pageLines]
  have page : (commitView git repo sha).value =
      (commitFields git repo ((answer git ["rev-parse",sha]).getD sha) (trim commit.printed)).value := by
    rw [commitView,bind_value,orReturn_value,run_value,run_value]
    change (answer git ["log","-1",commitFormat,(answer git ["rev-parse",sha]).getD sha]).bind _ = _
    rw [answered,Option.bind_some]
    rfl
  rw [page]
  exact commitFields_shape git repo _ pieces (parse_printed commit.seconds commit.stored)

-- It is the commit's when no single line ends in a return and the time fits in
-- milliseconds.
theorem commit_recovered (git : Git) (repo sha : String) (commit : Commit)
    (printed : git ["log","-1",commitFormat,(answer git ["rev-parse",sha]).getD sha] = some commit.printed) :
    ∃ info, (commitView git repo sha).value = some info ∧
      (Recovered info commit ↔ ¬ Returned commit.subject ∧ ¬ Returned commit.author ∧ ¬ Returned commit.email ∧
        -9223372036854775 ≤ commit.seconds ∧ commit.seconds ≤ 9223372036854775) := by
  obtain ⟨diff,changeId,value⟩ := commitView_value git repo sha commit printed
  have parents : (splitWhitespace (join " " commit.parents)).map (fun p => (commitParent git repo p).value.id.sha) =
      commit.parents := by
    rw [split_words commit.parents commit.hashes.2]
    exact List.map_id' commit.parents
  refine ⟨_,value,?_⟩
  constructor
  · intro recovered
    exact ⟨(ofList_chomp _).mp recovered.subject,(ofList_chomp _).mp recovered.author,(ofList_chomp _).mp recovered.email,
      (product_fits _).mp recovered.time⟩
  · rintro ⟨subject,author,email,fits⟩
    exact {
      sha := rfl
      parents := by
        rw [List.map_map]
        exact parents
      subject := (ofList_chomp _).mpr subject
      body := body_read commit.body
      author := (ofList_chomp _).mpr author
      email := (ofList_chomp _).mpr email
      time := (product_fits _).mpr fits }

def sampleCommit (seconds : Int) (stored : i64Min ≤ seconds ∧ seconds ≤ i64Max) : Commit where
  sha := "1f2e"
  parents := ["aa01","bb02"]
  subject := ""
  body := "one\r\n\nann@example\n1700000000\n"
  author := "Ann Lee"
  email := "ann@example"
  seconds := seconds
  hashes := by decide
  single := by decide
  stored := stored

def sampleGit (seconds : Int) (stored : i64Min ≤ seconds ∧ seconds ≤ i64Max) : Git := fun args =>
  if args = ["log","-1",commitFormat,"1f2e"] then some (sampleCommit seconds stored).printed else none

theorem commit_recovered_sample : ∃ info, (commitView (sampleGit 1700000000 (by decide)) "r" "1f2e").value = some info ∧
    Recovered info (sampleCommit 1700000000 (by decide)) := by
  obtain ⟨info,shown,recovered⟩ := commit_recovered (sampleGit 1700000000 (by decide)) "r" "1f2e"
    (sampleCommit 1700000000 (by decide)) (if_pos rfl)
  exact ⟨info,shown,recovered.mpr (by decide)⟩

-- The first second after those that fit: the time wraps.
theorem commit_time_wraps : ¬ ∀ git repo sha, ∀ commit : Commit,
    git ["log","-1",commitFormat,(answer git ["rev-parse",sha]).getD sha] = some commit.printed →
      ∃ info, (commitView git repo sha).value = some info ∧ Recovered info commit := by
  intro claimed
  obtain ⟨info,shown,recovered⟩ := claimed (sampleGit 9223372036854776 (by decide)) "r" "1f2e"
    (sampleCommit 9223372036854776 (by decide)) (if_pos rfl)
  obtain ⟨diff,changeId,value⟩ := commitView_value (sampleGit 9223372036854776 (by decide)) "r" "1f2e"
    (sampleCommit 9223372036854776 (by decide)) (if_pos rfl)
  rw [value] at shown
  cases shown
  have wrapped : ((9223372036854776 : Int) * 1000).bmod (u64Max + 1) = 9223372036854776 * 1000 := recovered.time
  exact absurd wrapped (by decide)

end Quire.CommitPage
