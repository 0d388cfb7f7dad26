import JavaMigration.Main
import JavaMigration.Source.Retype
import JavaMigration.Proofs.Recipe.Failure
import JavaMigration.Proofs.Recipe.Reference
import JavaMigration.Proofs.Recipe.Completeness
import JavaMigration.Proofs.Recipe.Comments
import JavaMigration.Proofs.Recipe.Hygiene
import JavaMigration.Proofs.Java.Faithful
import JavaMigration.Proofs.Project.Preview
import JavaMigration.Proofs.Dependency.Control
import JavaMigration.Proofs.Project.Interleaving
import JavaMigration.Proofs.Source.Messages
import JavaMigration.Proofs.Recipe.LineEndings
import JavaMigration.Proofs.Source.Fragments
import JavaMigration.Proofs.Source.Sharing
import JavaMigration.Proofs.Recipe.Reports
import JavaMigration.Proofs.Edit.UsedImports
import JavaMigration.Proofs.Edit.Application
import JavaMigration.Proofs.Recipe.ClosedVariables
import JavaMigration.Proofs.Recipe.MethodNames
import JavaMigration.Proofs.Dependency.Stability
import JavaMigration.Proofs.Dependency.RaisedNotations
import JavaMigration.Proofs.Diff.ReadBack
import JavaMigration.Proofs.Edit.ImportOrder
import JavaMigration.Proofs.Edit.Indentation
import JavaMigration.Proofs.Edit.Snippets
import JavaMigration.Proofs.Edit.AppliedEdits
import JavaMigration.Proofs.Source.EventLog
import JavaMigration.Proofs.Java.Selects
import JavaMigration.Proofs.Dependency.ExactVersions
import JavaMigration.Proofs.Java.Declarations
