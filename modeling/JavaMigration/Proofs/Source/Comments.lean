import JavaMigration.Java.Lexeme
import JavaMigration.Proofs.Source.Segments

/-!
# Comments

The comments of a source, in order, and those of a tree: what its spaces and the code between them
hold.
-/

namespace JavaMigration.Source

/-! ## Comments in text -/

/-- Where a scan of blanks and comments stands, with what it has read of a comment. -/
inductive CommentScan where
  | outside
  | line (read : List Char)
  | block (read : List Char)

/-- The comments from there on. A block comment without an end is none. -/
def commentsFrom : CommentScan → List Char → List String
  | .outside, '/' :: '/' :: r => commentsFrom (.line ['/', '/']) r
  | .outside, '/' :: '*' :: r => commentsFrom (.block ['/', '*']) r
  | .outside, _ :: r => commentsFrom .outside r
  | .outside, [] => []
  | .line read, '\n' :: r => String.ofList read :: commentsFrom .outside r
  | .line read, c :: r => commentsFrom (.line (read ++ [c])) r
  | .line read, [] => [String.ofList read]
  | .block read, '*' :: '/' :: r =>
    String.ofList (read ++ ['*', '/']) :: commentsFrom .outside r
  | .block read, c :: r => commentsFrom (.block (read ++ [c])) r
  | .block _, [] => []

def Space.comments (s : Space) : List String := commentsFrom .outside s.text.toList

/-- The comments of a source: those in the spaces of its lexemes. -/
def commentsOf (source : String) : List String :=
  match Java.lex source with
  | some (ls, close) => ls.flatMap (·.lead.comments) ++ close.comments
  | none => []

theorem commentsFrom_dropWhile (s : List Char) :
    commentsFrom .outside (s.dropWhile fun c => c == '\n' || c == '\r') =
      commentsFrom .outside s := by
  induction s with
  | nil => rfl
  | cons c r ih =>
    rw [List.dropWhile_cons]
    split
    · next hbreak =>
      obtain rfl | rfl : c = '\n' ∨ c = '\r' := by simpa using hbreak
      · exact ih
      · exact ih
    · rfl

/-- Line breaks in front hold no comments. -/
theorem Space.comments_dropNewlines (s : Space) : s.dropNewlines.comments = s.comments := by
  unfold comments dropNewlines Text.dropWhileStart
  rw [String.toList_ofList, commentsFrom_dropWhile]

/-! ## Comments of trees -/

def Segment.comments : Segment → List String
  | space s => s.comments
  | code text => commentsOf text

def commentsIn (segments : List Segment) : List String := segments.flatMap (·.comments)

@[simp] theorem commentsIn_nil : commentsIn [] = [] := rfl

@[simp] theorem commentsIn_cons (s : Segment) (segments : List Segment) :
    commentsIn (s :: segments) = s.comments ++ commentsIn segments := rfl

@[simp] theorem commentsIn_append (front back : List Segment) :
    commentsIn (front ++ back) = commentsIn front ++ commentsIn back := by
  unfold commentsIn
  rw [List.flatMap_append]

theorem commentsIn_sublist {front back : List Segment} (h : front.Sublist back) :
    (commentsIn front).Sublist (commentsIn back) := by
  induction h with
  | slnil => exact .slnil
  | cons s _ ih => exact ih.trans (List.sublist_append_right _ _)
  | cons_cons s _ ih => exact (List.Sublist.refl _).append ih

/-- The comments of a unit. -/
def CompilationUnit.comments (u : CompilationUnit) : List String := commentsIn u.segments

theorem comments_withLead {s : Statement} {lead : Space}
    (h : lead.dropNewlines = s.lead.dropNewlines) :
    commentsIn (s.withLead lead).segments = commentsIn s.segments := by
  have hlead : (Segment.space lead).comments = (Segment.space s.lead).comments := by
    rw [Segment.comments, Segment.comments, ← lead.comments_dropNewlines, h,
      s.lead.comments_dropNewlines]
  have hself := s.segments_withLead s.lead
  rw [s.withLead_lead] at hself
  rw [hself, s.segments_withLead, commentsIn_cons, commentsIn_cons, hlead]

end JavaMigration.Source
