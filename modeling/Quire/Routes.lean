import Quire.UrlPath

namespace Quire.Routes
open UrlPath

-- One segment of a route. Literals are matched as they were sent; a capture
-- takes one segment that is not empty, the rest a path that is not.
inductive Part where
  | literal (text : Bytes)
  | capture
  | rest
  deriving DecidableEq, Repr

abbrev Route := List Part

-- What the route captures of the segments, still encoded.
def Route.captures : Route → List Bytes → Option (List Bytes)
  | [],[] => some []
  | .literal text :: parts,segment :: segments => if segment = text then Route.captures parts segments else none
  | .capture :: parts,segment :: segments =>
    if segment = [] then none else (Route.captures parts segments).map (segment :: ·)
  | [.rest],segment :: segments =>
    let path := [47].intercalate (segment :: segments)
    if path = [] then none else some [path]
  | _,_ => none

-- A table lists a route with a literal before one with a capture in its place.
def dispatch (table : List (Route × Handler)) (segments : List Bytes) : Option (Handler × List Bytes) :=
  table.findSome? fun (route,handler) => (Route.captures route segments).map fun captured => (handler,captured)

theorem captures_literals (texts : List Bytes) (parts : Route) (segments : List Bytes) :
    Route.captures (texts.map Part.literal ++ parts) (texts ++ segments) = Route.captures parts segments := by
  induction texts with
  | nil => rfl
  | cons text texts ih => rw [List.map_cons,List.cons_append,List.cons_append,Route.captures,if_pos rfl,ih]

-- Literals and then one capture.
theorem captures_last {texts : List Bytes} {path captured : List Bytes}
    (found : Route.captures (texts.map Part.literal ++ [Part.capture]) path = some captured) :
    ∃ segment, segment ≠ [] ∧ path = texts ++ [segment] ∧ captured = [segment] := by
  induction texts generalizing path with
  | nil =>
    cases path with
    | nil => cases found
    | cons segment path =>
      rw [List.map_nil,List.nil_append,Route.captures] at found
      split at found
      · cases found
      · rename_i full
        cases path with
        | nil =>
          cases found
          exact ⟨segment,full,rfl,rfl⟩
        | cons => cases found
  | cons text texts ih =>
    cases path with
    | nil => cases found
    | cons segment path =>
      rw [List.map_cons,List.cons_append,Route.captures] at found
      split at found
      · rename_i same
        obtain ⟨last,full,rfl,captures⟩ := ih found
        exact ⟨last,full,by rw [same]; rfl,captures⟩
      · cases found

end Quire.Routes
