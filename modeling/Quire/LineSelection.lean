import Mathlib.Data.List.OfFn
import Quire.StepSystem
import Quire.TextLines

namespace Quire.LineSelection
open Text TextLines StepSystem

-- /^#L(\d+)(?:-L(\d+))?$/, the numbers in order. Those that parseInt rounds are
-- beyond every row, as they are here.
def parseHash (hash : String) : Option (Nat × Nat) :=
  match hash.toList with
  | '#' :: 'L' :: rest =>
    match rest.span Char.isDigit with
    | (first,[]) => (digits first).map fun start => (start,start)
    | (first,'-' :: 'L' :: second) =>
      (digits first).bind fun start => (digits second).map fun last => (min start last,max start last)
    | _ => none
  | _ => none

-- What parseInt makes of a number, NaN where there is none.
abbrev Line := Option Nat

def Line.text : Line → String
  | some line => line.repr
  | none => "NaN"

-- `===`, and Math.min and Math.max.
def Line.same : Line → Line → Bool
  | some a,some b => a == b
  | _,_ => false

def Line.least : Line → Line → Line
  | some a,some b => some (min a b)
  | _,_ => none

def Line.most : Line → Line → Line
  | some a,some b => some (max a b)
  | _,_ => none

def lineHash (line : Line) : String := "#L" ++ line.text

def rangeHash (a b : Line) : String := if Line.same a b then lineHash a else lineHash a ++ "-L" ++ b.text

-- The entries of the session history, nearest first, with the one that is shown;
-- the rows of the file by their class; what the script keeps; the events it has
-- told the document, the last one first.
structure Window where
  back : List String
  hash : String
  forward : List String
  settled : Bool
  selected : List Bool
  anchorLine : Option Line
  dispatched : List (Nat × Nat)
  deriving DecidableEq, Repr

def opened (hash : String) : Window := ⟨[],hash,[],false,[],none,[]⟩

-- The rows that a hash asks for, as far as there are any.
def range (rows : Nat) (hash : String) : Option (Nat × Nat) :=
  (parseHash hash).bind fun sel => if sel.1 ≤ rows then some (sel.1,min sel.2 rows) else none

def Within (range : Option (Nat × Nat)) (line : Nat) : Prop := ∃ sel ∈ range, sel.1 ≤ line ∧ line ≤ sel.2

instance (range : Option (Nat × Nat)) : DecidablePred (Within range) := fun line =>
  match range with
  | none => .isFalse fun ⟨_,member,_⟩ => nomatch member
  | some sel => decidable_of_iff (sel.1 ≤ line ∧ line ≤ sel.2) (by simp [Within])

def marks (rows : Nat) (range : Option (Nat × Nat)) : List Bool := List.ofFn fun i : Fin rows => decide (Within range (i + 1))

def applySelection (window : Window) : Window :=
  let sel := range window.selected.length window.hash
  let selected := marks window.selected.length sel
  { window with
    selected := selected
    dispatched := if selected.any id then sel.toList ++ window.dispatched else window.dispatched }

-- `split`, with the rows it puts in place.
def settle (rows : Nat) (window : Window) : Window :=
  applySelection { window with settled := true, selected := List.replicate rows false }

def pushState (hash : String) (window : Window) : Window :=
  { window with back := window.hash :: window.back, hash := hash, forward := [] }

-- A click on a number. Those the server has rendered have no data-line.
def click (number : Nat) (shift : Bool) (window : Window) : Window :=
  let line : Line := if window.settled then some number else none
  match window.anchorLine with
  | some anchor =>
    if shift then applySelection (pushState (rangeHash (Line.least anchor line) (Line.most anchor line)) window)
    else applySelection (pushState (lineHash line) { window with anchorLine := some line })
  | none => applySelection (pushState (lineHash line) { window with anchorLine := some line })

def goBack (window : Window) : Window :=
  match window.back with
  | [] => window
  | hash :: rest => { window with back := rest, hash := hash, forward := window.hash :: window.forward }

def goForward (window : Window) : Window :=
  match window.forward with
  | [] => window
  | hash :: rest => { window with back := window.hash :: window.back, hash := hash, forward := rest }

-- The events of one change of the URL: popstate, hashchange or both.
def heard (both : Bool) (window : Window) : Window :=
  if both then applySelection (applySelection window) else applySelection window

inductive Event where
  | settle (rows : Nat)
  | click (number : Nat) (shift : Bool)
  | back (both : Bool)
  | forward (both : Bool)
  | navigate (hash : String) (both : Bool)
  deriving DecidableEq, Repr

-- To navigate to the hash that is there changes nothing.
def perform (window : Window) : Event → Window
  | .settle rows => settle rows window
  | .click number shift => click number shift window
  | .back both => heard both (goBack window)
  | .forward both => heard both (goForward window)
  | .navigate hash both => if hash = window.hash then window else heard both (pushState hash window)

-- The code is split once, into at least one row; then the numbers are those of
-- the rows. The history has ends.
def Possible (window : Window) : Event → Prop
  | .settle rows => window.settled = false ∧ 0 < rows
  | .click number _ => window.settled = true → 1 ≤ number ∧ number ≤ window.selected.length
  | .back _ => window.back ≠ []
  | .forward _ => window.forward ≠ []
  | .navigate _ _ => True

def Step (before : Window) (event : Event) (after : Window) : Prop := Possible before event ∧ perform before event = after

-- The rows that a window shows as selected.
def Window.shows (window : Window) (line : Nat) : Prop := 1 ≤ line ∧ window.selected[line - 1]? = some true

-- The clicks of a run, each with the number the script read and its shift key,
-- behind whether the code was split by then.
def note (seen : Bool × List (Line × Bool)) : Event → Bool × List (Line × Bool)
  | .settle _ => (true,seen.2)
  | .click number shift => (seen.1,seen.2 ++ [(if seen.1 then some number else none,shift)])
  | _ => seen

def clicks (events : List Event) : List (Line × Bool) := (events.foldl note (false,[])).2

-- A selection is extended from the last click without shift, or else the first click.
def anchorOf (clicks : List (Line × Bool)) : Option Line :=
  (((clicks.filter fun click => !click.2).getLast?).or clicks.head?).map Prod.fst

-- What a click on a row is to select.
def Selects (anchor : Option Line) (number : Nat) (shift : Bool) (line : Nat) : Prop :=
  match shift,anchor with
  | true,some (some anchor) => min anchor number ≤ line ∧ line ≤ max anchor number
  | true,some none => False
  | _,_ => line = number

section Hashes

theorem span_digits {front : List Char} (all : ∀ c ∈ front, c.isDigit = true) (rest : List Char) (stop : ∀ c ∈ rest.head?, c.isDigit = false) :
    (front ++ rest).span Char.isDigit = (front,rest) := by
  rw [List.span_eq_takeWhile_dropWhile,List.takeWhile_append_of_pos all,List.dropWhile_append_of_pos all]
  cases rest with
  | nil => simp
  | cons c rest =>
    have other := stop c rfl
    simp [other]

theorem parse_line (n : Nat) : parseHash (lineHash (some n)) = some (n,n) := by
  have text : (lineHash (some n)).toList = '#' :: 'L' :: n.repr.toList := by simp [lineHash,Line.text]
  have cut : n.repr.toList.span Char.isDigit = (n.repr.toList,[]) := by
    have whole := span_digits (numeral_digits n).2 [] nofun
    rwa [List.append_nil] at whole
  rw [parseHash,text]
  simp only [cut]
  rw [digits_repr]
  rfl

theorem parse_pair (a b : Nat) : parseHash (lineHash (some a) ++ "-L" ++ Line.text (some b)) = some (min a b,max a b) := by
  have text : (lineHash (some a) ++ "-L" ++ Line.text (some b)).toList = '#' :: 'L' :: (a.repr.toList ++ '-' :: 'L' :: b.repr.toList) := by
    simp [lineHash,Line.text]
  have cut := span_digits (numeral_digits a).2 ('-' :: 'L' :: b.repr.toList) (by simp)
  rw [parseHash,text]
  simp only [cut]
  rw [digits_repr,digits_repr]
  rfl

-- A hash the script makes is read as it was meant.
theorem parse_range {a b : Nat} (ordered : a ≤ b) : parseHash (rangeHash (some a) (some b)) = some (a,b) := by
  rw [rangeHash,Line.same]
  split
  · rename_i same
    obtain rfl := beq_iff_eq.mp same
    exact parse_line a
  · rw [parse_pair,Nat.min_eq_left ordered,Nat.max_eq_right ordered]

theorem parse_nan : parseHash (lineHash none) = none ∧ parseHash (rangeHash none none) = none := by decide +kernel

end Hashes

section Selection
variable {window : Window} {rows : Nat} {hash : String} {events : List Event}

theorem marks_length (rows : Nat) (sel : Option (Nat × Nat)) : (marks rows sel).length = rows := List.length_ofFn

theorem marks_shown (rows : Nat) (sel : Option (Nat × Nat)) (i : Nat) : (marks rows sel)[i]? = some true ↔ i < rows ∧ Within sel (i + 1) := by
  rw [marks,List.getElem?_ofFn]
  split
  · rename_i inside
    simp [inside]
  · rename_i outside
    simp [outside]

theorem range_within {hash : String} {line : Nat} (within : Within (range rows hash) line) : line ≤ rows := by
  obtain ⟨sel,found,_,most⟩ := within
  obtain ⟨parsed,_,clipped⟩ := Option.bind_eq_some_iff.mp found
  split at clipped
  · obtain rfl := Option.some.inj clipped
    exact Nat.le_trans most (Nat.min_le_right _ _)
  · cases clipped

-- What the script keeps to between two events.
structure Follows (window : Window) : Prop where
  shown : window.selected = marks window.selected.length (range window.selected.length window.hash)
  told : window.selected.any id = true → window.dispatched.head? = range window.selected.length window.hash
  early : window.settled = false → window.selected = []
  numbered : ∀ anchor, window.anchorLine = some (some anchor) → 1 ≤ anchor ∧ anchor ≤ window.selected.length

theorem apply_length (window : Window) : (applySelection window).selected.length = window.selected.length := marks_length _ _

-- The rows are selected by the hash, whatever was selected before.
theorem apply_follows (window : Window) (early : window.settled = false → window.selected = [])
    (numbered : ∀ anchor, window.anchorLine = some (some anchor) → 1 ≤ anchor ∧ anchor ≤ window.selected.length) :
    Follows (applySelection window) := by
  have size := apply_length window
  constructor
  · rw [size]
    rfl
  · intro some
    have hash : (applySelection window).hash = window.hash := rfl
    rw [size,hash]
    have selected : (applySelection window).dispatched =
        (range window.selected.length window.hash).toList ++ window.dispatched := if_pos some
    rw [selected]
    cases found : range window.selected.length window.hash with
    | some sel => rfl
    | none =>
      have marked : (applySelection window).selected = marks window.selected.length none := by
        rw [← found]
        rfl
      have none : (marks window.selected.length none).any id = false := by
        simp [marks,Within]
      rw [marked,none] at some
      cases some
  · intro unsettled
    have empty := congrArg List.length (early unsettled)
    rw [← size] at empty
    exact List.length_eq_zero_iff.mp empty
  · intro anchor kept
    rw [size]
    exact numbered anchor kept

theorem shows_follows (follows : Follows window) (line : Nat) :
    window.shows line ↔ 1 ≤ line ∧ Within (range window.selected.length window.hash) line := by
  rw [Window.shows,follows.shown,marks_shown,marks_length]
  refine and_congr_right fun positive => ?_
  rw [Nat.sub_add_cancel positive]
  refine and_iff_right_of_imp fun within => ?_
  have inside := range_within within
  omega

theorem heard_follows (both : Bool) (early : window.settled = false → window.selected = [])
    (numbered : ∀ anchor, window.anchorLine = some (some anchor) → 1 ≤ anchor ∧ anchor ≤ window.selected.length) :
    Follows (heard both window) := by
  have once := apply_follows window early numbered
  cases both with
  | false => exact once
  | true => exact apply_follows _ once.early once.numbered

-- Traversing the history changes the hash and nothing else that counts.
theorem goBack_keeps (window : Window) : (goBack window).settled = window.settled ∧ (goBack window).selected = window.selected ∧
    (goBack window).anchorLine = window.anchorLine := by
  unfold goBack
  split <;> exact ⟨rfl,rfl,rfl⟩

theorem goForward_keeps (window : Window) : (goForward window).settled = window.settled ∧ (goForward window).selected = window.selected ∧
    (goForward window).anchorLine = window.anchorLine := by
  unfold goForward
  split <;> exact ⟨rfl,rfl,rfl⟩

theorem click_follows (follows : Follows window) (number : Nat) (shift : Bool)
    (listed : window.settled = true → 1 ≤ number ∧ number ≤ window.selected.length) : Follows (click number shift window) := by
  have placed : ∀ anchor, some (if window.settled then some number else none) = some (some anchor) →
      1 ≤ anchor ∧ anchor ≤ window.selected.length := by
    intro anchor same
    cases settled : window.settled with
    | false => rw [settled] at same; cases same
    | true =>
      rw [settled] at same
      cases same
      exact listed settled
  unfold click
  dsimp only
  split
  · split
    · exact apply_follows _ follows.early follows.numbered
    · exact apply_follows _ follows.early placed
  · exact apply_follows _ follows.early placed

theorem perform_follows (follows : Follows window) (possible : Possible window event) : Follows (perform window event) := by
  cases event with
  | settle rows =>
    refine apply_follows _ nofun fun anchor kept => ?_
    have none := follows.numbered anchor kept
    rw [follows.early possible.1,List.length_nil] at none
    omega
  | click number shift => exact click_follows follows number shift possible
  | back both =>
    obtain ⟨settled,selected,anchor⟩ := goBack_keeps window
    exact heard_follows both (by rw [settled,selected]; exact follows.early) (by rw [anchor,selected]; exact follows.numbered)
  | forward both =>
    obtain ⟨settled,selected,anchor⟩ := goForward_keeps window
    exact heard_follows both (by rw [settled,selected]; exact follows.early) (by rw [anchor,selected]; exact follows.numbered)
  | navigate hash both =>
    rw [perform]
    split
    · exact follows
    · exact heard_follows both follows.early follows.numbered

theorem run_follows (run : Runs Step (opened hash) events window) : Follows window :=
  run.invariant Follows (fun _ _ _ follows step => step.2 ▸ perform_follows follows step.1) ⟨rfl,nofun,fun _ => rfl,nofun⟩

theorem anchorOf_none (list : List (Line × Bool)) : anchorOf list = none ↔ list = [] := by
  cases list with
  | nil => exact iff_of_true rfl rfl
  | cons first rest => simp [anchorOf]

-- One more click keeps the anchor where it is held with shift.
theorem anchorOf_snoc (list : List (Line × Bool)) (line : Line) (shift : Bool) :
    anchorOf (list ++ [(line,shift)]) = match anchorOf list with
      | some anchor => if shift then some anchor else some line
      | none => some line := by
  cases shift with
  | false =>
    have last : anchorOf (list ++ [(line,false)]) = some line := by simp [anchorOf]
    rw [last]
    split <;> rfl
  | true =>
    cases list with
    | nil => rfl
    | cons first rest =>
      have same : anchorOf (first :: rest ++ [(line,true)]) = anchorOf (first :: rest) := by simp [anchorOf]
      rw [same]
      cases held : anchorOf (first :: rest) with
      | none => exact absurd ((anchorOf_none _).mp held) (List.cons_ne_nil _ _)
      | some anchor => rfl

theorem note_snoc (events : List Event) (event : Event) : (events ++ [event]).foldl note (false,[]) = note (events.foldl note (false,[])) event := by
  rw [List.foldl_append]
  rfl

theorem apply_keeps (window : Window) : (applySelection window).settled = window.settled ∧
    (applySelection window).anchorLine = window.anchorLine := ⟨rfl,rfl⟩

theorem heard_keeps (both : Bool) (window : Window) : (heard both window).settled = window.settled ∧
    (heard both window).anchorLine = window.anchorLine := by
  cases both <;> exact ⟨rfl,rfl⟩

-- What the script keeps is what the clicks of the run say.
theorem run_anchor (run : Runs Step (opened hash) events window) :
    window.settled = (events.foldl note (false,[])).1 ∧ window.anchorLine = anchorOf (clicks events) := by
  induction run with
  | nil => exact ⟨rfl,rfl⟩
  | @step earlier before event _ prior step ih =>
    obtain ⟨_,rfl⟩ := step
    obtain ⟨settled,anchor⟩ := ih
    rw [clicks,note_snoc]
    rw [clicks] at anchor
    cases event with
    | settle rows => exact ⟨rfl,anchor⟩
    | click number shift =>
      rw [note,anchorOf_snoc,← anchor,← settled,perform,click]
      split
      · split
        · rename_i held _
          exact ⟨rfl,held⟩
        · exact ⟨rfl,rfl⟩
      · exact ⟨rfl,rfl⟩
    | back both =>
      obtain ⟨one,_,two⟩ := goBack_keeps before
      obtain ⟨three,four⟩ := heard_keeps both (goBack before)
      exact ⟨(three.trans one).trans settled,(four.trans two).trans anchor⟩
    | forward both =>
      obtain ⟨one,_,two⟩ := goForward_keeps before
      obtain ⟨three,four⟩ := heard_keeps both (goForward before)
      exact ⟨(three.trans one).trans settled,(four.trans two).trans anchor⟩
    | navigate target both =>
      rw [perform]
      split
      · exact ⟨settled,anchor⟩
      · obtain ⟨three,four⟩ := heard_keeps both (pushState target before)
        exact ⟨three.trans settled,four.trans anchor⟩

theorem goBack_click (number : Nat) (shift : Bool) (window : Window) :
    (goBack (click number shift window)).hash = window.hash ∧ (click number shift window).selected.length = window.selected.length ∧
      (click number shift window).back ≠ [] := by
  unfold click
  dsimp only
  split
  · split
    · exact ⟨rfl,apply_length _,List.cons_ne_nil _ _⟩
    · exact ⟨rfl,apply_length _,List.cons_ne_nil _ _⟩
  · exact ⟨rfl,apply_length _,List.cons_ne_nil _ _⟩

theorem heard_hash (both : Bool) (window : Window) : (heard both window).hash = window.hash ∧
    (heard both window).selected.length = window.selected.length := by
  cases both with
  | false => exact ⟨rfl,apply_length _⟩
  | true => exact ⟨rfl,(apply_length _).trans (apply_length _)⟩

-- Two windows of the same rows and the same hash show the same.
theorem shows_same {other : Window} (one : Follows window) (two : Follows other) (rows : window.selected.length = other.selected.length)
    (hash : window.hash = other.hash) (line : Nat) : window.shows line ↔ other.shows line := by
  rw [shows_follows one,shows_follows two,rows,hash]

theorem range_asked {start last : Nat} (asked : parseHash hash = some (start,last)) (first : start ≤ rows) (end' : last ≤ rows) (line : Nat) :
    Within (range rows hash) line ↔ start ≤ line ∧ line ≤ last := by
  rw [range,asked,Option.bind_some,if_pos first,Nat.min_eq_left end']
  simp [Within]

theorem click_selects (follows : Follows window) (settled : window.settled = true) (number : Nat) (shift : Bool)
    (listed : 1 ≤ number ∧ number ≤ window.selected.length) (line : Nat) :
    (click number shift window).shows line ↔ Selects window.anchorLine number shift line := by
  rw [shows_follows (click_follows follows number shift fun _ => listed),(goBack_click number shift window).2.1]
  -- the hash the script has made, by what the anchor is
  have single : ∀ line, Within (range window.selected.length (lineHash (some number))) line ↔ line = number := by
    intro line
    rw [range_asked (parse_line number) listed.2 listed.2]
    omega
  cases held : window.anchorLine with
  | none =>
    have hash : (click number shift window).hash = lineHash (some number) := by
      rw [click,held,settled]
      rfl
    rw [hash,single]
    cases shift <;> exact and_iff_right_of_imp (by rintro rfl; exact listed.1)
  | some anchor =>
    cases shift with
    | false =>
      have hash : (click number false window).hash = lineHash (some number) := by
        rw [click,held,settled]
        rfl
      rw [hash,single]
      exact and_iff_right_of_imp (by rintro rfl; exact listed.1)
    | true =>
      have hash : (click number true window).hash = rangeHash (Line.least anchor (some number)) (Line.most anchor (some number)) := by
        rw [click,held,settled]
        rfl
      rw [hash]
      cases anchor with
      | none =>
        have nothing : range window.selected.length (rangeHash none none) = none := by rw [range,parse_nan.2]; rfl
        exact iff_of_false (fun both => nomatch (nothing ▸ both.2 : Within none line)) id
      | some anchor =>
        have kept := follows.numbered anchor held
        have ordered : min anchor number ≤ max anchor number := Nat.le_trans (Nat.min_le_left _ _) (Nat.le_max_left _ _)
        have within := range_asked (parse_range ordered) (Nat.le_trans (Nat.min_le_left _ _) kept.2) (Nat.max_le.mpr ⟨kept.2,listed.2⟩) line
        rw [Line.least,Line.most,within,Selects]
        omega

end Selection

-- A number that was clicked before the code was split leaves no line to count from.
example : (click 2 true (settle 9 (click 4 false (opened "")))).hash = "#LNaN-LNaN" := by decide +kernel

end Quire.LineSelection
