import JavaMigration.Source.Printer

/-!
# Printing, part by part

What a declaration, a body and some statements print, each from what their parts print.
-/

namespace JavaMigration.Source

@[simp] theorem Space.text_empty : Space.empty.text = "" := rfl

theorem TypeDecl.print_eq (d : TypeDecl) : d.print = d.printHead ++ d.body.print := by
  cases d; rfl

theorem MethodDecl.print_eq (d : MethodDecl) :
    d.print = d.printHead ++ (d.body.elim (d.close.text ++ ";") Block.print) := by
  cases d with
  | mk _ _ _ _ _ _ _ _ body _ => cases body <;> rfl

/-- The space in front of a statement is printed first. -/
theorem Statement.print_withLead (s : Statement) (lead : Space) :
    (s.withLead lead).print = lead.text ++ (s.withLead .empty).print := by
  cases s with
  | type d =>
    simp only [Statement.withLead, Statement.print, TypeDecl.print_eq, TypeDecl.printHead,
      Space.text_empty, String.empty_append, String.append_assoc]
  | method d =>
    simp only [Statement.withLead, Statement.print, MethodDecl.print_eq, MethodDecl.printHead,
      Space.text_empty, String.empty_append, String.append_assoc]
  | vars d =>
    simp only [Statement.withLead, Statement.print, VariableDecl.print, Space.text_empty,
      String.empty_append, String.append_assoc]
  | call c =>
    simp only [Statement.withLead, Statement.print, Call.print, Space.text_empty,
      String.empty_append, String.append_assoc]
  | raw r =>
    simp only [Statement.withLead, Statement.print, RawCode.print, Space.text_empty,
      String.empty_append]

theorem Block.print_eq (b : Block) :
    b.print = b.lead.text ++ "\x7b" ++ printStatements b.statements ++ b.close.text ++ "\x7d" := by
  cases b; rfl

theorem printStatements_append (ss ts : List Statement) :
    printStatements (ss ++ ts) = printStatements ss ++ printStatements ts := by
  induction ss with
  | nil => exact String.empty_append.symm
  | cons s ss ih =>
    rw [List.cons_append, printStatements, printStatements, ih, String.append_assoc]

end JavaMigration.Source
