import JavaMigration.Proofs.Source.Mailbox

/-!
# Running the steps of a traversal

What each step of a walk does to a session. The steps of a walk are opened by these equations
and nowhere else.
-/

namespace JavaMigration.Source

namespace Walk

variable {μ σ α β : Type}

theorem run_bind (x : Walk μ σ α) (f : α → Walk μ σ β) (s : Session μ σ) :
    (x >>= f).run s = (f (x.run s).1).run (x.run s).2 := rfl

theorem run_pure (a : α) (s : Session μ σ) : (pure a : Walk μ σ α).run s = (a, s) := rfl

theorem run_cursor (s : Session μ σ) : (Walk.cursor : Walk μ σ _).run s = (s.cursor, s) := rfl

theorem run_own (s : Session μ σ) : (Walk.own : Walk μ σ σ).run s = (s.own, s) := rfl

theorem run_attach (node : Node) (act : Walk μ σ α) (frames : List (Frame μ)) (own : σ) :
    (attach node act).run ⟨⟨frames⟩, own⟩ =
      let r := act.run ⟨⟨{ node } :: frames⟩, own⟩
      (r.1, ⟨⟨r.2.cursor.frames.tail⟩, r.2.own⟩) := rfl

/-- A post is a delivery, whether or not somebody is there to take it. -/
theorem run_post (kind : NodeKind) (key : String) (message : μ) (frames : List (Frame μ))
    (own : σ) :
    ((post kind key message).run ⟨⟨frames⟩, own⟩).2 =
      ⟨⟨deliver kind [(key, message)] frames⟩, own⟩ := by
  have h := Cursor.post_snd ⟨frames⟩ kind key message
  exact congrArg (Session.mk · own) h

theorem run_poll (read : μ → Option α) (key : String) (f : Frame μ) (frames : List (Frame μ))
    (own : σ) :
    (poll read key).run ⟨⟨f :: frames⟩, own⟩ =
      ((f.mail.lookup key).bind read,
        ⟨⟨{ f with mail := f.mail.filter (·.1 != key) } :: frames⟩, own⟩) := rfl

theorem run_reveal_fst (node : α → Node) (r : Revision α) (s : Session μ σ) :
    ((reveal node r).run s).1 = r := by
  cases r <;> rfl

/-- A node that is rebuilt is shown, one that is kept is there already. -/
theorem run_reveal (node : α → Node) (old : α) {f : Frame μ} (h : f.node = node old)
    (r : Revision α) (frames : List (Frame μ)) (own : σ) :
    (reveal node r).run ⟨⟨f :: frames⟩, own⟩ =
      (r, ⟨⟨{ f with node := node (r.get old) } :: frames⟩, own⟩) := by
  cases r with
  | kept => rw [Revision.get, ← h]; rfl
  | replaced new => rfl

end Walk

namespace Revision

variable {α β : Type}

theorem get_map {f : α → β} {r : Revision α} {a : α} : (r.map f).get (f a) = f (r.get a) := by
  cases r <;> rfl

theorem map_map {γ : Type} (g : β → γ) (f : α → β) (r : Revision α) :
    (r.map f).map g = r.map (g ∘ f) := by
  cases r <;> rfl

@[simp] theorem isKept_map (f : α → β) (r : Revision α) : (r.map f).isKept = r.isKept := by
  cases r <;> rfl

/-- A list of statements with what became of the first and of the others. -/
def cons (s : Statement) (rest : List Statement) :
    Revision Statement → Revision (List Statement) → Revision (List Statement)
  | kept, kept => kept
  | first, more => replaced (first.get s :: more.get rest)

theorem isKept_cons (s : Statement) (rest : List Statement) (first : Revision Statement)
    (more : Revision (List Statement)) :
    (cons s rest first more).isKept ↔ first.isKept ∧ more.isKept := by
  cases first <;> cases more <;> simp [cons, isKept]

theorem get_cons (s : Statement) (rest : List Statement) (first : Revision Statement)
    (more : Revision (List Statement)) :
    (cons s rest first more).get (s :: rest) = first.get s :: more.get rest := by
  cases first <;> cases more <;> rfl

end Revision

/-! ## The visits of nodes with children -/

namespace Visitor

variable {μ σ : Type} (v : Visitor μ σ)

theorem visitType_eq (d : TypeDecl) :
    v.visitType d = Walk.attach (.type d) (v.type d do
      Walk.reveal .type ((← v.visitBlock d.body).map fun body => { d with body })) := by
  cases d; rfl

theorem visitMethod_of_none {d : MethodDecl} (h : d.body = none) :
    v.visitMethod d = Walk.attach (.method d) (v.method d (pure .kept)) := by
  cases d; subst h; rfl

theorem visitMethod_of_some {d : MethodDecl} {b : Block} (h : d.body = some b) :
    v.visitMethod d = Walk.attach (.method d) (v.method d do
      Walk.reveal .method
        ((← v.visitBlock b).map fun body => { d with body := some body })) := by
  cases d; subst h; rfl

theorem visitBlock_eq (b : Block) :
    v.visitBlock b = Walk.attach (.block b) (v.block b do
      Walk.reveal .block
        ((← v.visitStatements b.statements).map fun statements => { b with statements })) := by
  cases b; rfl

theorem visitStatements_cons (s : Statement) (rest : List Statement) :
    v.visitStatements (s :: rest) = (do
      return Revision.cons s rest (← v.visitStatement s) (← v.visitStatements rest)) := by
  rw [visitStatements]
  refine congrArg (bind _) (funext fun first => congrArg (bind _) (funext fun more => ?_))
  cases first <;> cases more <;> rfl

end Visitor

end JavaMigration.Source
