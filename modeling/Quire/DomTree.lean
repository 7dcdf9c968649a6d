namespace Quire.DomTree

-- The nodes below an element: text, elements with their tag and attributes, and
-- nodes that hold no text.
inductive Node (Tag Other : Type) where
  | text (data : String)
  | element (tag : Tag) (children : List (Node Tag Other))
  | other (node : Other)

variable {Tag Other : Type}

mutual
def Node.textContent : Node Tag Other → String
  | .text data => data
  | .element _ children => textContent children
  | .other _ => ""

-- The text below an element.
def textContent : List (Node Tag Other) → String
  | [] => ""
  | node :: rest => node.textContent ++ textContent rest
end

mutual
def Node.marked (chain : List Tag) : Node Tag Other → List (Char × List Tag)
  | .text data => data.toList.map fun c => (c,chain)
  | .element tag children => marked (chain ++ [tag]) children
  | .other _ => []

-- Its characters, each with the elements it stands in, outermost first.
def marked (chain : List Tag) : List (Node Tag Other) → List (Char × List Tag)
  | [] => []
  | node :: rest => node.marked chain ++ marked chain rest
end

-- Through a tree: below each element, and then behind it.
theorem tree_induction {holds : List (Node Tag Other) → Prop} (nil : holds [])
    (text : ∀ data rest, holds rest → holds (.text data :: rest))
    (element : ∀ tag children rest, holds children → holds rest → holds (.element tag children :: rest))
    (other : ∀ node rest, holds rest → holds (.other node :: rest)) (nodes : List (Node Tag Other)) : holds nodes := by
  refine @Node.rec_1 Tag Other (fun node => ∀ rest, holds rest → holds (node :: rest)) holds text ?_ other nil ?_ nodes
  · intro tag children inside rest behind
    exact element tag children rest inside behind
  · intro node rest first behind
    exact first rest behind

theorem marked_append (chain : List Tag) (left right : List (Node Tag Other)) :
    marked chain (left ++ right) = marked chain left ++ marked chain right := by
  induction left with
  | nil => simp [marked]
  | cons node rest ih => rw [List.cons_append,marked,marked,ih,List.append_assoc]

theorem textContent_append (left right : List (Node Tag Other)) :
    textContent (left ++ right) = textContent left ++ textContent right := by
  induction left with
  | nil => simp [textContent]
  | cons node rest ih => rw [List.cons_append,textContent,textContent,ih,String.append_assoc]

-- The characters alone are the text.
theorem marked_text (chain : List Tag) (nodes : List (Node Tag Other)) :
    (marked chain nodes).map Prod.fst = (textContent nodes).toList := by
  induction nodes using tree_induction generalizing chain with
  | nil => rfl
  | text data rest ih => simp [marked,Node.marked,textContent,Node.textContent,ih,Function.comp_def]
  | element tag children rest inside ih => simp [marked,Node.marked,textContent,Node.textContent,inside,ih]
  | other node rest ih => simp [marked,Node.marked,textContent,Node.textContent,ih]

end Quire.DomTree
