/-! The kinds of syntax nodes. The rules of this library name about fifty kinds
of the Elm grammar; every further kind is kept by its name. Keywords are nodes
too, and the one before a name tells what the name declares. -/
namespace ElmScope

inductive Kind where
  | file
  | error
  | moduleDeclaration
  | moduleKeyword
  | importClause
  | importKeyword
  | asClause
  | exposingList
  | doubleDot
  | exposedValue
  | exposedType
  | exposedOperator
  | exposedUnionConstructors
  | upperCaseQid
  | valueQid
  | upperCaseIdentifier
  | lowerCaseIdentifier
  | dot
  | valueDeclaration
  | functionDeclarationLeft
  | typeSignature
  | portSignature
  | typeExpression
  | typeRef
  | recordType
  | fieldType
  | arrow
  | typeDeclaration
  | typeKeyword
  | typeAliasDeclaration
  | aliasKeyword
  | unionVariant
  | infixDeclaration
  | operatorIdentifier
  | valueExpr
  | letInExpr
  | caseOfBranch
  | anonymousFunctionExpr
  | pattern
  | lowerPattern
  | recordBaseIdentifier
  | recordExpr
  | field
  | fieldAccessExpr
  | blockComment
  | lineComment
  | other (name : String)
deriving DecidableEq, Repr, Inhabited

namespace Kind

def name : Kind → String
  | file => "file"
  | error => "ERROR"
  | moduleDeclaration => "module_declaration"
  | moduleKeyword => "module"
  | importClause => "import_clause"
  | importKeyword => "import"
  | asClause => "as_clause"
  | exposingList => "exposing_list"
  | doubleDot => "double_dot"
  | exposedValue => "exposed_value"
  | exposedType => "exposed_type"
  | exposedOperator => "exposed_operator"
  | exposedUnionConstructors => "exposed_union_constructors"
  | upperCaseQid => "upper_case_qid"
  | valueQid => "value_qid"
  | upperCaseIdentifier => "upper_case_identifier"
  | lowerCaseIdentifier => "lower_case_identifier"
  | dot => "dot"
  | valueDeclaration => "value_declaration"
  | functionDeclarationLeft => "function_declaration_left"
  | typeSignature => "type_annotation"
  | portSignature => "port_annotation"
  | typeExpression => "type_expression"
  | typeRef => "type_ref"
  | recordType => "record_type"
  | fieldType => "field_type"
  | arrow => "arrow"
  | typeDeclaration => "type_declaration"
  | typeKeyword => "type"
  | typeAliasDeclaration => "type_alias_declaration"
  | aliasKeyword => "alias"
  | unionVariant => "union_variant"
  | infixDeclaration => "infix_declaration"
  | operatorIdentifier => "operator_identifier"
  | valueExpr => "value_expr"
  | letInExpr => "let_in_expr"
  | caseOfBranch => "case_of_branch"
  | anonymousFunctionExpr => "anonymous_function_expr"
  | pattern => "pattern"
  | lowerPattern => "lower_pattern"
  | recordBaseIdentifier => "record_base_identifier"
  | recordExpr => "record_expr"
  | field => "field"
  | fieldAccessExpr => "field_access_expr"
  | blockComment => "block_comment"
  | lineComment => "line_comment"
  | other name => name

/-- The kinds that the rules of this library name. -/
def named : List Kind :=
  [file, error, moduleDeclaration, moduleKeyword, importClause, importKeyword, asClause,
   exposingList, doubleDot, exposedValue, exposedType, exposedOperator,
   exposedUnionConstructors, upperCaseQid, valueQid, upperCaseIdentifier, lowerCaseIdentifier,
   dot, valueDeclaration, functionDeclarationLeft, typeSignature, portSignature,
   typeExpression, typeRef, recordType, fieldType, arrow, typeDeclaration, typeKeyword,
   typeAliasDeclaration, aliasKeyword, unionVariant, infixDeclaration, operatorIdentifier,
   valueExpr, letInExpr, caseOfBranch, anonymousFunctionExpr, pattern, lowerPattern,
   recordBaseIdentifier, recordExpr, field, fieldAccessExpr, blockComment, lineComment]

/-- The kind of a name: the one that the rules name if there is one. -/
def ofName (name : String) : Kind := (named.find? (·.name = name)).getD (other name)

end Kind

end ElmScope
