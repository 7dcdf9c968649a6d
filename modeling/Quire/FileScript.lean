import Quire.DomTree
import Quire.FilePage

namespace Quire.FileScript
open Text TextLines RepoNames RepoPaths CharReferences GitViews GitArguments LogFields FilePage DomTree
variable {Tag Other : Type}

-- What `takeLine` makes of some nodes: whether it has consumed a newline, what
-- it leaves in the source and what it has moved to the line.
structure Taken (Tag Other : Type) where
  hit : Bool
  src : List (Node Tag Other)
  dst : List (Node Tag Other)

def textNode (data : String) : List (Node Tag Other) := if data = "" then [] else [.text data]

mutual
-- An element that the newline stands in is reopened on the line; what is left of
-- it stays in the source, even with nothing in it.
def takeNode : Node Tag Other → Taken Tag Other
  | .text data =>
    match splitOnce data '\n' with
    | none => ⟨false,[],[.text data]⟩
    | some (front,remainder) => ⟨true,textNode remainder,textNode front⟩
  | .other node => ⟨false,[],[.other node]⟩
  | .element tag children =>
    let inner := takeLine children
    ⟨inner.hit,if inner.hit then [.element tag inner.src] else [],[.element tag inner.dst]⟩

def takeLine : List (Node Tag Other) → Taken Tag Other
  | [] => ⟨false,[],[]⟩
  | node :: rest =>
    let first := takeNode node
    if first.hit then ⟨true,first.src ++ rest,first.dst⟩
    else
      let later := takeLine rest
      ⟨later.hit,later.src,first.dst ++ later.dst⟩
end

structure Row (Tag Other : Type) where
  n : Nat
  content : List (Node Tag Other)

-- The loop of `split`, for so many turns.
def rowsFrom : Nat → Nat → List (Node Tag Other) → Option (List (Row Tag Other))
  | 0,_,_ => none
  | turns + 1,n,code =>
    let line := takeLine code
    if line.hit && !line.src.isEmpty then (rowsFrom turns (n + 1) line.src).map (⟨n,line.dst⟩ :: ·)
    else some [⟨n,line.dst⟩]

-- The rows that `split` puts in place of the code, none where it returns early.
def split (turns : Nat) (code : List (Node Tag Other)) : Option (List (Row Tag Other)) :=
  if textContent code = "" then some [] else rowsFrom turns 1 code

def Row.text (row : Row Tag Other) : String := textContent row.content

-- Nothing is lost: the lines are the text but for one newline at its end, and
-- the characters between newlines stand in the elements they stood in.
structure Lossless (code : List (Node Tag Other)) (rows : List (Row Tag Other)) : Prop where
  joined : textContent code = join "\n" (rows.map Row.text) ∨ textContent code = join "\n" (rows.map Row.text) ++ "\n"
  chains : (rows.flatMap fun row => marked [] row.content) = (marked [] code).filter fun mark => mark.1 != '\n'

-- Of the server's rendering there is a row for each line, under its number.
def Counted (code : List (Node Tag Other)) (rows : List (Row Tag Other)) : Prop :=
  ∀ lines : List String, (∀ line ∈ lines, '\n' ∉ line.toList) → textContent code = String.join (lines.map (· ++ "\n")) →
    rows.map (fun row => (row.n,row.text)) = (List.range' 1 lines.length).zip lines

-- The last child is a text node, and ends the last line.
def Closed (nodes : List (Node Tag Other)) : Prop := ∃ data, nodes.getLast? = some (.text data) ∧ data.toList.getLast? = some '\n'

-- The last newline ends a text node that nothing follows and no element holds.
def EndsInText (code : List (Node Tag Other)) : Prop := (textContent code).toList.getLast? = some '\n' → Closed code

-- What becomes of some nodes, and of the elements around each character.
structure Takes (chain : List Tag) (nodes : List (Node Tag Other)) (taken : Taken Tag Other) : Prop where
  whole : taken.hit = false → taken.src = [] ∧ marked chain nodes = marked chain taken.dst
  cut : taken.hit = true → ∃ own, marked chain nodes = marked chain taken.dst ++ ('\n',own) :: marked chain taken.src
  line : '\n' ∉ (textContent taken.dst).toList

variable {chain : List Tag} {node : Node Tag Other} {nodes rest code : List (Node Tag Other)}

theorem marked_textNode (chain : List Tag) (data : String) :
    marked chain (textNode data : List (Node Tag Other)) = data.toList.map fun c => (c,chain) := by
  unfold textNode
  split
  · rename_i empty
    simp [empty,marked]
  · simp [marked,Node.marked]

theorem textContent_textNode (data : String) : textContent (textNode data : List (Node Tag Other)) = data := by
  unfold textNode
  split
  · rename_i empty
    simp [empty,textContent]
  · simp [textContent,Node.textContent]

theorem takes_all {dst : List (Node Tag Other)} (same : marked chain nodes = marked chain dst)
    (free : '\n' ∉ (textContent dst).toList) : Takes chain nodes ⟨false,[],dst⟩ :=
  ⟨fun _ => ⟨rfl,same⟩,Bool.noConfusion,free⟩

theorem takes_cut {src dst : List (Node Tag Other)} (same : marked chain nodes = marked chain dst ++ ('\n',own) :: marked chain src)
    (free : '\n' ∉ (textContent dst).toList) : Takes chain nodes ⟨true,src,dst⟩ :=
  ⟨Bool.noConfusion,fun _ => ⟨own,same⟩,free⟩

theorem takeNode_text (chain : List Tag) (data : String) : Takes chain [.text data] (takeNode (.text data : Node Tag Other)) := by
  rw [takeNode]
  rcases splitOnce_cases data '\n' with ⟨missing,free⟩ | ⟨front,remainder,found,text,free⟩
  · rw [missing]
    exact takes_all rfl (by simpa [textContent,Node.textContent] using free)
  · rw [found]
    apply takes_cut
    · rw [marked_textNode,marked_textNode]
      simp [marked,Node.marked,text]
      rfl
    · rwa [textContent_textNode]

theorem takeNode_other (chain : List Tag) (node : Other) : Takes chain [.other node] (takeNode (.other node : Node Tag Other)) := by
  rw [takeNode]
  exact takes_all rfl (by simp [textContent,Node.textContent])

-- The newline of an element is the first below it.
theorem takeNode_element {tag : Tag} {children : List (Node Tag Other)} (inner : Takes (chain ++ [tag]) children (takeLine children)) :
    Takes chain [.element tag children] (takeNode (.element tag children)) := by
  have line : ∀ nodes : List (Node Tag Other), marked chain [.element tag nodes] = marked (chain ++ [tag]) nodes := fun nodes => by
    simp [marked,Node.marked]
  have text : textContent [.element tag (takeLine children).dst] = textContent (takeLine children).dst := by
    simp [textContent,Node.textContent]
  have free := inner.line
  rw [← text] at free
  rw [takeNode]
  cases hit : (takeLine children).hit with
  | false => exact takes_all (by rw [line,line,(inner.whole hit).2]) free
  | true =>
    obtain ⟨own,cut⟩ := inner.cut hit
    exact takes_cut (by rw [if_pos rfl,line,line,line,cut]) free

-- A newline in the first node leaves the others where they are.
theorem takeLine_cons (first : Takes chain [node] (takeNode node)) (later : Takes chain rest (takeLine rest)) :
    Takes chain (node :: rest) (takeLine (node :: rest)) := by
  have whole : marked chain (node :: rest) = marked chain [node] ++ marked chain rest := marked_append chain [node] rest
  rw [takeLine]
  cases hit : (takeNode node).hit with
  | true =>
    obtain ⟨own,cut⟩ := first.cut hit
    apply takes_cut
    · rw [whole,cut,marked_append,List.append_assoc]
      rfl
    · exact first.line
  | false =>
    have same := (first.whole hit).2
    refine ⟨?_,?_,?_⟩
    · intro missed
      obtain ⟨empty,behind⟩ := later.whole missed
      exact ⟨empty,by rw [whole,same,behind]; exact (marked_append _ _ _).symm⟩
    · intro found
      obtain ⟨own,cut⟩ := later.cut found
      refine ⟨own,?_⟩
      rw [whole,same,cut,← List.append_assoc,← marked_append]
      rfl
    · intro inside
      rw [if_neg Bool.false_ne_true,textContent_append,String.toList_append] at inside
      rcases List.mem_append.mp inside with inFirst | inLater
      · exact first.line inFirst
      · exact later.line inLater

theorem takeLine_takes (chain : List Tag) (nodes : List (Node Tag Other)) : Takes chain nodes (takeLine nodes) := by
  induction nodes using tree_induction generalizing chain with
  | nil => exact takes_all rfl (by simp [textContent])
  | text data rest ih => exact takeLine_cons (takeNode_text chain data) (ih chain)
  | element tag children rest inside ih => exact takeLine_cons (takeNode_element (inside _)) (ih chain)
  | other node rest ih => exact takeLine_cons (takeNode_other chain node) (ih chain)

theorem closed_append (front : List (Node Tag Other)) (some : rest ≠ []) : Closed (front ++ rest) ↔ Closed rest := by
  rw [Closed,Closed,List.getLast?_append_of_ne_nil front some]

theorem closed_text (data : String) : Closed ([.text data] : List (Node Tag Other)) ↔ data.toList.getLast? = some '\n' := by
  simp [Closed]

theorem closed_element {tag : Tag} {children : List (Node Tag Other)} : ¬ Closed [.element tag children] := by
  rintro ⟨data,last,_⟩
  cases last

-- Nothing is left behind the newline that closes the code.
theorem takeNode_closed (hit : (takeNode node).hit = true) :
    Closed [node] ↔ (takeNode node).src = [] ∨ Closed (takeNode node).src := by
  cases node with
  | text data =>
    rw [takeNode] at *
    rcases splitOnce_cases data '\n' with ⟨missing,_⟩ | ⟨front,remainder,found,text,_⟩
    · rw [missing] at hit
      cases hit
    · rw [found,closed_text,text]
      dsimp only
      unfold textNode
      split
      · rename_i empty
        simp [empty]
      · rename_i full
        have some : remainder.toList ≠ [] := fun empty => full (String.toList_eq_nil_iff.mp empty)
        have split : '\n' :: remainder.toList = ['\n'] ++ remainder.toList := rfl
        rw [closed_text,split,← List.append_assoc,List.getLast?_append_of_ne_nil _ some]
        simp
  | element tag children =>
    rw [takeNode] at *
    have found : (takeLine children).hit = true := hit
    simp [found,closed_element]
  | other node =>
    rw [takeNode] at hit
    cases hit

theorem takeLine_closed (nodes : List (Node Tag Other)) (hit : (takeLine nodes).hit = true) :
    Closed nodes ↔ (takeLine nodes).src = [] ∨ Closed (takeLine nodes).src := by
  induction nodes with
  | nil =>
    rw [takeLine] at hit
    cases hit
  | cons node rest ih =>
    rw [takeLine] at *
    cases found : (takeNode node).hit with
    | true =>
      rw [if_pos rfl]
      dsimp only
      by_cases more : rest = []
      · subst more
        rw [List.append_nil]
        exact takeNode_closed found
      · have behind : Closed (node :: rest) ↔ Closed rest := closed_append [node] more
        rw [behind,closed_append _ more]
        simp [more]
    | false =>
      rw [found,if_neg Bool.false_ne_true] at hit
      rw [if_neg Bool.false_ne_true]
      have more : rest ≠ [] := by
        rintro rfl
        rw [takeLine] at hit
        cases hit
      have behind : Closed (node :: rest) ↔ Closed rest := closed_append [node] more
      rw [behind]
      exact ih hit

theorem closed_ends (closed : Closed nodes) : (textContent nodes).toList.getLast? = some '\n' := by
  obtain ⟨data,last,ending⟩ := closed
  obtain ⟨front,rfl⟩ := List.getLast?_eq_some_iff.mp last
  have some : data.toList ≠ [] := by
    intro empty
    rw [empty] at ending
    cases ending
  have tail : textContent ([.text data] : List (Node Tag Other)) = data := by simp [textContent,Node.textContent]
  rw [textContent_append,tail,String.toList_append,List.getLast?_append_of_ne_nil _ some,ending]

def newlines (nodes : List (Node Tag Other)) : Nat := (textContent nodes).toList.count '\n'

theorem takeLine_text (hit : (takeLine nodes).hit = true) : (textContent nodes).toList =
    (textContent (takeLine nodes).dst).toList ++ '\n' :: (textContent (takeLine nodes).src).toList := by
  obtain ⟨own,cut⟩ := (takeLine_takes [] nodes).cut hit
  have chars := congrArg (List.map Prod.fst) cut
  rwa [List.map_append,List.map_cons,marked_text,marked_text,marked_text] at chars

theorem takeLine_last (missed : (takeLine nodes).hit = false) : textContent nodes = textContent (takeLine nodes).dst := by
  have chars := congrArg (List.map Prod.fst) ((takeLine_takes [] nodes).whole missed).2
  rw [marked_text,marked_text] at chars
  exact String.toList_inj.mp chars

theorem takeLine_fewer (hit : (takeLine nodes).hit = true) : newlines (takeLine nodes).src < newlines nodes := by
  rw [newlines,newlines,takeLine_text hit,List.count_append,List.count_cons_self]
  omega

def kept (mark : Char × List Tag) : Bool := mark.1 != '\n'

theorem marked_line (nodes : List (Node Tag Other)) :
    (marked [] (takeLine nodes).dst).filter kept = marked [] (takeLine nodes).dst := by
  apply List.filter_eq_self.mpr
  intro mark member
  have inText : mark.1 ∈ (textContent (takeLine nodes).dst).toList := by
    rw [← marked_text []]
    exact List.mem_map_of_mem member
  have other : mark.1 ≠ '\n' := fun same => (takeLine_takes [] nodes).line (same ▸ inText)
  simpa [kept] using other

-- The rows made of some code, from a number on. The pieces between its newlines
-- are theirs, but for the last where the code is closed.
structure Follows (n : Nat) (code : List (Node Tag Other)) (rows : List (Row Tag Other)) : Prop where
  numbered : rows.map Row.n = List.range' n rows.length
  chains : (rows.flatMap fun row => marked [] row.content) = (marked [] code).filter kept
  pieces : (Closed code ∧ (textContent code).toList.splitOn '\n' = rows.map (fun row => row.text.toList) ++ [[]]) ∨
    (¬ Closed code ∧ (textContent code).toList.splitOn '\n' = rows.map fun row => row.text.toList)

theorem follows_last (missed : (takeLine code).hit = false) (n : Nat) : Follows n code [⟨n,(takeLine code).dst⟩] where
  numbered := rfl
  chains := by
    have same := ((takeLine_takes [] code).whole missed).2
    rw [same,marked_line]
    simp
  pieces := by
    have free := (takeLine_takes [] code).line
    rw [takeLine_last missed]
    refine .inr ⟨?_,List.splitOn_eq_singleton free⟩
    intro closed
    have ending := closed_ends closed
    rw [takeLine_last missed] at ending
    exact free (List.mem_of_getLast? ending)

theorem marked_cut (hit : (takeLine code).hit = true) : (marked [] code).filter kept =
    marked [] (takeLine code).dst ++ (marked [] (takeLine code).src).filter kept := by
  obtain ⟨own,cut⟩ := (takeLine_takes [] code).cut hit
  rw [cut,List.filter_append,marked_line]
  rfl

theorem splitOn_cut (hit : (takeLine code).hit = true) : (textContent code).toList.splitOn '\n' =
    (textContent (takeLine code).dst).toList :: (textContent (takeLine code).src).toList.splitOn '\n' := by
  rw [takeLine_text hit]
  exact List.splitOn_append_cons_self_of_not_mem (takeLine_takes [] code).line _

theorem follows_closed (hit : (takeLine code).hit = true) (empty : (takeLine code).src = []) (n : Nat) :
    Follows n code [⟨n,(takeLine code).dst⟩] where
  numbered := rfl
  chains := by
    rw [marked_cut hit,empty]
    simp [marked]
  pieces := by
    refine .inl ⟨(takeLine_closed code hit).mpr (.inl empty),?_⟩
    rw [splitOn_cut hit,empty]
    rfl

theorem follows_next (hit : (takeLine code).hit = true) (more : (takeLine code).src ≠ [])
    (later : Follows (n + 1) (takeLine code).src rows) : Follows n code (⟨n,(takeLine code).dst⟩ :: rows) where
  numbered := by rw [List.map_cons,later.numbered]; rfl
  chains := by rw [marked_cut hit,List.flatMap_cons,later.chains]
  pieces := by
    have closed : Closed code ↔ Closed (takeLine code).src := by rw [takeLine_closed code hit]; simp [more]
    rw [closed,splitOn_cut hit]
    rcases later.pieces with ⟨ends,pieces⟩ | ⟨ends,pieces⟩
    · exact .inl ⟨ends,by rw [pieces]; rfl⟩
    · exact .inr ⟨ends,by rw [pieces]; rfl⟩

-- The loop ends, and one turn for each newline and one more are enough.
theorem rowsFrom_follows (n : Nat) (code : List (Node Tag Other)) :
    ∃ rows, (∀ turns, newlines code < turns → rowsFrom turns n code = some rows) ∧ Follows n code rows := by
  induction code using (measure newlines).wf.induction generalizing n with
  | _ code ih =>
    by_cases again : ((takeLine code).hit && !(takeLine code).src.isEmpty) = true
    · obtain ⟨hit,left⟩ := Bool.and_eq_true_iff.mp again
      have more : (takeLine code).src ≠ [] := by simpa using left
      have fewer := takeLine_fewer hit
      obtain ⟨rows,looped,follows⟩ := ih (takeLine code).src fewer (n + 1)
      refine ⟨_,?_,follows_next hit more follows⟩
      intro turns enough
      cases turns with
      | zero => omega
      | succ turns =>
        have behind : newlines (takeLine code).src < turns := by omega
        rw [rowsFrom,if_pos again,looped turns behind]
        rfl
    · refine ⟨[⟨n,(takeLine code).dst⟩],?_,?_⟩
      · intro turns enough
        cases turns with
        | zero => omega
        | succ turns => rw [rowsFrom,if_neg again]
      · cases hit : (takeLine code).hit with
        | false => exact follows_last hit n
        | true =>
          rw [hit] at again
          exact follows_closed hit (by simpa using again) n

theorem rows_chars (rows : List (Row Tag Other)) :
    (join "\n" (rows.map Row.text)).toList = ['\n'].intercalate (rows.map fun row => row.text.toList) := by
  rw [join_toList,List.map_map]
  rfl

theorem follows_lossless (follows : Follows 1 code rows) : Lossless code rows where
  joined := by
    have whole : ['\n'].intercalate ((textContent code).toList.splitOn '\n') = (textContent code).toList := List.intercalate_splitOn '\n'
    rcases follows.pieces with ⟨closed,pieces⟩ | ⟨_,pieces⟩
    · have some : (rows.map fun row => row.text.toList) ≠ [] := by
        intro empty
        have ending := closed_ends closed
        rw [empty] at pieces
        rw [pieces] at whole
        rw [← whole] at ending
        cases ending
      refine .inr (String.toList_inj.mp ?_)
      rw [String.toList_append,rows_chars,← whole,pieces,terminated_pieces,terminated_joined some]
      rfl
    · refine .inl (String.toList_inj.mp ?_)
      rw [rows_chars,← pieces,whole]
  chains := follows.chains

-- The lines of a text that a newline ends are the pieces but the last.
theorem terminated_text (lines : List String) : (String.join (lines.map (· ++ "\n"))).toList =
    (lines.map String.toList).flatMap (· ++ ['\n']) := by
  simp [String.toList_join,List.flatMap_map]

theorem lines_pieces {lines : List String} (free : ∀ line ∈ lines, '\n' ∉ line.toList)
    (text : textContent code = String.join (lines.map (· ++ "\n"))) :
    (textContent code).toList.splitOn '\n' = lines.map String.toList ++ [[]] := by
  rw [text,terminated_text]
  exact splitOn_terminated _ (by simpa using free)

theorem rows_numbered (follows : Follows 1 code rows) (lines : List String)
    (texts : (rows.map fun row => row.text.toList) = lines.map String.toList) :
    rows.map (fun row => (row.n,row.text)) = (List.range' 1 lines.length).zip lines := by
  have same : rows.map Row.text = lines := by
    apply (List.map_inj_right (f := String.toList) fun _ _ same => String.toList_inj.mp same).mp
    rw [List.map_map]
    exact texts
  rw [← same,List.length_map,← follows.numbered,List.zip_map']

theorem terminated_ends {lines : List String} (some : lines ≠ []) :
    (String.join (lines.map (· ++ "\n"))).toList.getLast? = Option.some '\n' := by
  have texts : lines.map String.toList ≠ [] := by simpa using some
  rw [terminated_text,terminated_joined texts,List.getLast?_concat]

theorem follows_counted (some : textContent code ≠ "") (follows : Follows 1 code rows) : Counted code rows ↔ EndsInText code := by
  constructor
  · intro counted ending
    obtain ⟨front,text⟩ := List.getLast?_eq_some_iff.mp ending
    let lines := (front.splitOn '\n').map String.ofList
    have chars : lines.map String.toList = front.splitOn '\n' := by simp [lines,Function.comp_def]
    have free : ∀ line ∈ lines, '\n' ∉ line.toList := by
      intro line member
      exact splitOn_free '\n' front _ (chars ▸ List.mem_map_of_mem member)
    have rendered : textContent code = String.join (lines.map (· ++ "\n")) := by
      apply String.toList_inj.mp
      rw [terminated_text,chars,terminated_joined (List.splitOn_ne_nil _ _),List.intercalate_splitOn,text]
    have numbers := congrArg List.length (counted lines free rendered)
    have pieces := congrArg List.length (lines_pieces free rendered)
    rcases follows.pieces with ⟨closed,_⟩ | ⟨_,same⟩
    · exact closed
    · rw [same] at pieces
      simp at numbers pieces
      omega
  · intro ends lines free text
    rcases follows.pieces with ⟨_,same⟩ | ⟨other,_⟩
    · apply rows_numbered follows
      exact List.append_cancel_right (same ▸ lines_pieces free text)
    · have full : lines ≠ [] := by
        rintro rfl
        exact some text
      have ending := terminated_ends full
      rw [← text] at ending
      exact absurd (ends ending) other

-- Where the rows end up, once the loop has had turns enough.
def Ends (code : List (Node Tag Other)) (rows : List (Row Tag Other)) : Prop :=
  ∃ turns, ∀ more, turns ≤ more → split more code = some rows

theorem ends_unique (one : Ends code rows) (two : Ends code others) : rows = others := by
  obtain ⟨first,one⟩ := one
  obtain ⟨second,two⟩ := two
  have same := one (max first second) (Nat.le_max_left _ _)
  rw [two _ (Nat.le_max_right _ _)] at same
  exact (Option.some.inj same).symm

theorem split_empty (empty : textContent code = "") : Ends code [] ∧ Lossless code [] ∧ Counted code [] ∧ EndsInText code := by
  have chars : (marked [] code).map Prod.fst = [] := by
    rw [marked_text,empty]
    rfl
  refine ⟨⟨0,fun more _ => if_pos empty⟩,⟨.inl (by rw [empty]; rfl),?_⟩,?_,?_⟩
  · rw [List.map_eq_nil_iff.mp chars]
    rfl
  · intro lines _ text
    cases lines with
    | nil => rfl
    | cons line lines =>
      have ending := terminated_ends (List.cons_ne_nil line lines)
      rw [← text,empty] at ending
      cases ending
  · intro ending
    rw [empty] at ending
    cases ending

theorem split_parts (code : List (Node Tag Other)) :
    ∃ rows, Ends code rows ∧ Lossless code rows ∧ (Counted code rows ↔ EndsInText code) := by
  by_cases empty : textContent code = ""
  · obtain ⟨ended,lossless,counted,ends⟩ := split_empty empty
    exact ⟨[],ended,lossless,iff_of_true counted ends⟩
  · obtain ⟨rows,looped,follows⟩ := rowsFrom_follows 1 code
    refine ⟨rows,⟨newlines code + 1,?_⟩,follows_lossless follows,follows_counted empty follows⟩
    intro more enough
    rw [split,if_neg empty,looped more enough]

-- The rows of any code lose nothing, and are the server's lines just where the
-- last newline stands in no element and before no other node.
theorem split_rows (code : List (Node Tag Other)) :
    (∃ rows, Ends code rows ∧ Lossless code rows) ∧
      ((∃ rows, Ends code rows ∧ Lossless code rows ∧ Counted code rows) ↔ EndsInText code) := by
  obtain ⟨rows,ended,lossless,same⟩ := split_parts code
  refine ⟨⟨rows,ended,lossless⟩,?_,?_⟩
  · rintro ⟨others,other,_,counted⟩
    rw [← ends_unique ended other] at counted
    exact same.mp counted
  · intro ends
    exact ⟨rows,ended,lossless,same.mpr ends⟩

-- A token that takes its newline with it leaves the row of an empty element
-- behind the only line.
def commentToken : List (Node String Empty) := [.element "a-co" [.text "a\n"]]

theorem row_beside_line :
    ¬ ∃ rows, Ends commentToken rows ∧ Lossless commentToken rows ∧ Counted commentToken rows := by
  rintro ⟨rows,⟨turns,ended⟩,_,counted⟩
  have two : split (turns + 2) commentToken = some [⟨1,[.element "a-co" [.text "a"]]⟩,⟨2,[.element "a-co" []]⟩] := rfl
  rw [ended _ (Nat.le_add_right _ _)] at two
  cases two
  have single := counted ["a"] (by decide) (by decide)
  exact absurd (congrArg List.length single) (by decide)

-- On the page of a file the rows are its lines, under the numbers of the gutter.
theorem served_rows (git : Git) (path blob log raw : String)
    (read : (textContent code).toList = decode htmlReferences (fileView (fileOf git path blob log raw)).code.toList)
    (ends : EndsInText code) : ∃ rows, Ends code rows ∧
      rows.map Row.n = (fileView (fileOf git path blob log raw)).lineNums ∧ rows.map Row.text = lines blob := by
  obtain ⟨rows,ended,_,same⟩ := split_parts code
  have rendered : textContent code = String.join ((lines blob).map (· ++ "\n")) := by
    apply String.toList_inj.mp
    rw [read,shown_code,terminated_text,lines,List.map_map]
    simp [Function.comp_def]
  have counted := same.mpr ends (lines blob) (lines_free blob) rendered
  have length : (List.range' 1 (lines blob).length).length = (lines blob).length := List.length_range'
  refine ⟨rows,ended,?_,?_⟩
  · have numbers := congrArg (List.map Prod.fst) counted
    rw [List.map_map,List.map_fst_zip length.le] at numbers
    exact numbers
  · have texts := congrArg (List.map Prod.snd) counted
    rw [List.map_map,List.map_snd_zip length.ge] at texts
    exact texts

end Quire.FileScript
