import ElmScope.Completion
import ElmScope.Diagnostic
import ElmScope.Hover
import ElmScope.Scope.KeyedIndex
import ElmScope.Settings
import ElmScope.Proofs.Reference.DeclarationName
import ElmScope.Proofs.Reference.ImportClause
import ElmScope.Proofs.Reference.LexicalScope
import ElmScope.Proofs.Reference.SharedMeaning
import ElmScope.Proofs.Reference.Soundness
import ElmScope.Proofs.Reference.Visibility
import ElmScope.Proofs.Syntax.Cover
import ElmScope.Proofs.Text.Offset
import ElmScope.Proofs.Syntax.Description
import ElmScope.Proofs.Completion.AutoImport
import ElmScope.Proofs.Completion.Expression
import ElmScope.Proofs.Completion.Honoured
import ElmScope.Proofs.Completion.Unseen
import ElmScope.Proofs.Module.Exposure
import ElmScope.Proofs.Reference.ExposedItem
import ElmScope.Proofs.Module.Listing
import ElmScope.Proofs.Scope.Wildcard
import ElmScope.Proofs.Completion.Provenance
import ElmScope.Proofs.Workspace.Interleaving
import ElmScope.Proofs.Reference.Staleness
import ElmScope.Proofs.Text.Place
import ElmScope.Proofs.Completion.NestedRecord
import ElmScope.Proofs.Syntax.Span
import ElmScope.Proofs.Completion.TypeChain
import ElmScope.Proofs.Completion.AliasScope
import ElmScope.Proofs.Completion.FunctionType
import ElmScope.Proofs.Completion.Destructured
import ElmScope.Proofs.Reference.SignatureName
import ElmScope.Proofs.Reference.ListedConstructors
import ElmScope.Proofs.Text.Insertion
import ElmScope.Proofs.Completion.ExtendedImport
import ElmScope.Proofs.Completion.NewImport
import ElmScope.Proofs.Completion.ImportableConstructor
import ElmScope.Proofs.Completion.Cursor
import ElmScope.Proofs.Completion.HeaderList
import ElmScope.Proofs.Text.Pattern
import ElmScope.Proofs.Completion.DottedName
import ElmScope.Proofs.Completion.ImportList
import ElmScope.Proofs.Completion.Scan
import ElmScope.Proofs.Completion.Lexeme
import ElmScope.Proofs.Completion.FieldSegment
import ElmScope.Proofs.Syntax.Damage
import ElmScope.Proofs.Syntax.Adjacent
import ElmScope.Proofs.Reference.Hover
import ElmScope.Proofs.Reference.SignatureScope
import ElmScope.Proofs.Reference.QualifiedName
import ElmScope.Proofs.Completion.CursorNode
import ElmScope.Proofs.Settings.Layering
import ElmScope.Proofs.Syntax.Traversal
import ElmScope.Proofs.Completion.Overflow
import ElmScope.Proofs.Scope.KeyedIndex
import ElmScope.Proofs.Text.LineEnd
import ElmScope.Proofs.Completion.Region
