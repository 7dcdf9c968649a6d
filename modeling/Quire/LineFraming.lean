import Mathlib.Data.List.Basic

namespace Quire.LineFraming
variable {α Item : Type}

-- Every line is followed by the separator.
def frame (sep : α) (lines : List (List α)) : List α := lines.flatMap (· ++ [sep])

theorem frame_cons {sep : α} (line : List α) (lines : List (List α)) :
    frame sep (line :: lines) = line ++ sep :: frame sep lines := by
  simp [frame]

variable [DecidableEq α] {sep : α} {text : Item → List α}

-- What a reader that skips empty lines sees.
def linesOf (sep : α) (bytes : List α) : List (List α) := (bytes.splitOn sep).filter (· ≠ [])

-- The items whose whole text lies in the given beginning of their frame.
def complete (text : Item → List α) : List Item → List α → List Item
  | [],_ => []
  | item :: rest,bytes => if text item <+: bytes then item :: complete text rest (bytes.drop ((text item).length + 1)) else []

theorem linesOf_frame {lines : List (List α)} (free : ∀ line ∈ lines, sep ∉ line) (full : ∀ line ∈ lines, line ≠ [])
    (open_free : sep ∉ tail) : linesOf sep (frame sep lines ++ tail) = lines ++ [tail].filter (· ≠ []) := by
  induction lines with
  | nil => simp [linesOf,frame,List.splitOn_eq_singleton open_free]
  | cons line rest ih =>
    have first : sep ∉ line := free line List.mem_cons_self
    have shown : line ≠ [] := full line List.mem_cons_self
    have rest := ih (fun other member => free other (List.mem_cons_of_mem _ member))
      fun other member => full other (List.mem_cons_of_mem _ member)
    rw [linesOf] at rest ⊢
    rw [frame_cons,List.append_assoc,List.cons_append,List.splitOn_append_cons_self_of_not_mem first,
      List.filter_cons_of_pos (by simpa using shown),rest,List.cons_append]

theorem frame_count {lines : List (List α)} (free : ∀ line ∈ lines, sep ∉ line) : (frame sep lines).count sep = lines.length := by
  induction lines with
  | nil => rfl
  | cons line rest ih =>
    have none : line.count sep = 0 := List.count_eq_zero.mpr (free line List.mem_cons_self)
    have later := ih fun other member => free other (List.mem_cons_of_mem _ member)
    rw [frame_cons,List.count_append,none,List.count_cons_self,later,List.length_cons,Nat.zero_add]

-- A cut leaves whole lines, or whole lines of which the last lacks its
-- separator, or whole lines and then a proper part of the next one.
inductive Cut (sep : α) (text : Item → List α) (items : List Item) (bytes : List α) : Prop where
  | between (kept : bytes = frame sep ((complete text items bytes).map text))
  | unterminated (front : List Item) (last : Item) (shown : complete text items bytes = front ++ [last])
      (kept : bytes = frame sep (front.map text) ++ text last)
  | torn (item : Item) (rest : List Item) (part : List α) (next : items = complete text items bytes ++ item :: rest)
      (kept : bytes = frame sep ((complete text items bytes).map text) ++ part) (started : part ≠ [])
      (within : part <+: text item) (proper : part ≠ text item)

theorem complete_front (text : Item → List α) (items : List Item) (bytes : List α) :
    complete text items bytes <+: items := by
  induction items generalizing bytes with
  | nil => exact List.nil_prefix
  | cons item rest ih =>
    rw [complete]
    split
    · exact List.cons_prefix_cons.mpr ⟨rfl,ih _⟩
    · exact List.nil_prefix

theorem complete_nil {items : List Item} (full : ∀ item ∈ items, text item ≠ []) : complete text items [] = [] := by
  cases items with
  | nil => rfl
  | cons item rest => simp [complete,full item List.mem_cons_self]

theorem cut_cons {bytes : List α} {item : Item} {rest : List Item} (cut : Cut sep text rest bytes) :
    Cut sep text (item :: rest) (text item ++ sep :: bytes) := by
  have shown : complete text (item :: rest) (text item ++ sep :: bytes) = item :: complete text rest bytes := by
    simp [complete]
  cases cut with
  | between kept => exact .between (by rw [shown,List.map_cons,frame_cons,← kept])
  | unterminated front last whole kept =>
    exact .unterminated (item :: front) last (by rw [shown,whole,List.cons_append])
      (by rw [kept,List.map_cons,frame_cons,List.append_assoc,List.cons_append])
  | torn next later part split kept started within proper =>
    exact .torn next later part (by rw [shown,List.cons_append,← split])
      (by rw [shown,List.map_cons,frame_cons,List.append_assoc,List.cons_append,← kept]) started within proper

theorem cut_cases {items : List Item} (full : ∀ item ∈ items, text item ≠ [])
    (cut : bytes <+: frame sep (items.map text)) : Cut sep text items bytes := by
  induction items generalizing bytes with
  | nil =>
    have empty : bytes = [] := List.prefix_nil.mp cut
    exact .between (by simp [empty,complete,frame])
  | cons item rest ih =>
    have later : ∀ other ∈ rest, text other ≠ [] := fun other member => full other (List.mem_cons_of_mem _ member)
    rw [List.map_cons,frame_cons] at cut
    by_cases whole : text item <+: bytes
    · obtain ⟨more,rfl⟩ := whole
      rcases List.prefix_cons_iff.mp ((List.prefix_append_right_inj _).mp cut) with rfl | ⟨beyond,rfl,inner⟩
      · refine .unterminated [] item ?_ (by simp [frame])
        have consumed : (text item).drop ((text item).length + 1) = [] := List.drop_eq_nil_of_le (by omega)
        simp [complete,consumed,complete_nil later]
      · exact cut_cons (ih later inner)
    · have within : bytes <+: text item := by
        rcases List.prefix_or_prefix_of_prefix cut (List.prefix_append _ _) with inside | beyond
        · exact inside
        · exact absurd beyond whole
      have shown : complete text (item :: rest) bytes = [] := by simp [complete,whole]
      by_cases empty : bytes = []
      · exact .between (by rw [shown,empty]; rfl)
      · refine .torn item rest bytes (by rw [shown,List.nil_append]) (by rw [shown]; rfl) empty within fun same => ?_
        exact whole (same ▸ List.prefix_refl _)

section framed
variable {α : Type} {word run xs ys : List α} {sep : α}

-- A line and what is put before it.
structure Framed (α : Type) where
  before : List α
  line : List α

-- The framed lines with a mark on all that is not of a line.
def marked (sep : α) (lines : List (Framed α)) : List (Bool × α) :=
  lines.flatMap fun framed => framed.before.map (true,·) ++ (framed.line.map (false,·) ++ [(true,sep)])

-- The word stands in the text and takes in some of what is put around its lines.
def ReadsAcross (word : List α) (sep : α) (lines : List (Framed α)) : Prop :=
  ∃ run, run <:+: marked sep lines ∧ run.map Prod.snd = word ∧ ∃ c ∈ run, c.1 = true

theorem marked_text (sep : α) (lines : List (Framed α)) :
    (marked sep lines).map Prod.snd = frame sep (lines.map fun framed => framed.before ++ framed.line) := by
  induction lines with
  | nil => rfl
  | cons framed rest ih =>
    simp only [marked,List.flatMap_cons,List.map_append,List.map_cons,frame_cons] at ih ⊢
    rw [ih]
    simp [Function.comp_def]

-- An infix without such elements lies on one side of them.
theorem infix_beyond (outer : α → Prop) (started : run ≠ []) (inner : ∀ c ∈ run, ¬ outer c) (around : ∀ c ∈ xs, outer c)
    (found : run <:+: xs ++ ys) : run <:+: ys := by
  have apart : ∀ part : List α, part ≠ [] → (∀ c ∈ part, c ∈ run) → ¬ ∀ c ∈ part, c ∈ xs := by
    intro part full inRun inside
    obtain ⟨c,member⟩ := List.exists_mem_of_ne_nil part full
    exact inner c (inRun c member) (around c (inside c member))
  rcases List.infix_append_iff_ne_nil.mp found with left | right | ⟨front,back,frontFull,_,rfl,last,_⟩
  · exact absurd (fun c member => left.subset member) (apart run started fun _ member => member)
  · exact right
  · exact absurd (fun c member => last.subset member) (apart front frontFull fun _ => List.mem_append_left _)

theorem infix_sides {m : α} (outside : m ∉ run) (found : run <:+: xs ++ m :: ys) : run <:+: xs ∨ run <:+: ys := by
  rcases List.infix_append_iff_ne_nil.mp found with left | right | ⟨front,back,_,backFull,rfl,_,start⟩
  · exact .inl left
  · rcases List.infix_cons_iff.mp right with start | later
    · rcases List.prefix_cons_iff.mp start with rfl | ⟨rest,rfl,_⟩
      · exact .inl List.nil_infix
      · exact absurd List.mem_cons_self outside
    · exact .inr later
  · rcases List.prefix_cons_iff.mp start with rfl | ⟨rest,rfl,_⟩
    · exact absurd rfl backFull
    · exact absurd (by simp) outside

theorem unmarked_within {run : List (Bool × α)} {lines : List (Framed α)} (started : run ≠ [])
    (unmarked : ∀ c ∈ run, ¬ c.1 = true) (found : run <:+: marked sep lines) :
    ∃ framed ∈ lines, run.map Prod.snd <:+: framed.line := by
  induction lines with
  | nil => exact absurd (List.infix_nil.mp found) started
  | cons framed rest ih =>
    simp only [marked,List.flatMap_cons,List.append_assoc,List.singleton_append] at found
    have beyond := infix_beyond (fun c => c.1 = true) started unmarked (by simp) found
    have outside : (true,sep) ∉ run := fun member => unmarked _ member rfl
    rcases infix_sides outside beyond with inLine | later
    · have plain := inLine.map Prod.snd
      exact ⟨framed,List.mem_cons_self,by simpa [Function.comp_def] using plain⟩
    · obtain ⟨other,member,inLine⟩ := ih later
      exact ⟨other,List.mem_cons_of_mem _ member,inLine⟩

-- A word in the text lies within a line, or reads across its frame.
theorem infix_framed (started : word ≠ []) (lines : List (Framed α)) :
    word <:+: frame sep (lines.map fun framed => framed.before ++ framed.line) ↔
      (∃ framed ∈ lines, word <:+: framed.line) ∨ ReadsAcross word sep lines := by
  rw [← marked_text]
  constructor
  · intro found
    obtain ⟨run,inside,rfl⟩ := List.infix_map_iff.mp found
    by_cases across : ∃ c ∈ run, c.1 = true
    · exact .inr ⟨run,inside,rfl,across⟩
    · have unmarked : ∀ c ∈ run, ¬ c.1 = true := fun c member mark => across ⟨c,member,mark⟩
      exact .inl (unmarked_within (fun empty => started (by rw [empty]; rfl)) unmarked inside)
  · intro found
    rcases found with ⟨framed,member,inLine⟩ | ⟨run,inside,rfl,_⟩
    · rw [marked_text]
      have within : framed.before ++ framed.line ++ [sep] <:+: frame sep (lines.map fun framed => framed.before ++ framed.line) := by
        rw [frame,List.flatMap_def,List.map_map]
        exact List.infix_of_mem_flatten (List.mem_map_of_mem member)
      exact inLine.trans ((List.infix_append _ _ _).trans within)
    · exact inside.map Prod.snd

end framed

end Quire.LineFraming
