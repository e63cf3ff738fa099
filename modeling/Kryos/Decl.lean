import Kryos.Ast

/-!
# Declarations

The declarations of a module, under the names of the source. Methods of traits and impls, and the
items of an `extern` block, are declarations themselves.
-/

namespace Kryos.Ast

structure Annotation where
  name : String
  args : List String
  span : Span

structure GenericParam where
  name : String
  bounds : List String
  span : Span

structure StructField where
  name : String
  ty : TypeExpr
  isPublic : Bool
  default : Option Expr
  span : Span

structure EnumVariant where
  name : String
  fields : List TypeExpr
  span : Span

structure MessageHandler where
  name : String
  params : List Param
  retTy : Option TypeExpr
  body : Block
  span : Span

structure ImportPath where
  segments : List String
  asName : Option String
  items : List String
  span : Span

inductive Decl where
  | function (name : String) (generics : List GenericParam) (params : List Param)
      (retTy : Option TypeExpr) (body : Option Block) (isPublic isAsync : Bool)
      (annotations : List Annotation) (docComments : List String) (span : Span)
  | struct (name : String) (generics : List GenericParam) (fields : List StructField)
      (isPublic : Bool) (annotations : List Annotation) (docComments : List String) (span : Span)
  | enum (name : String) (generics : List GenericParam) (variants : List EnumVariant)
      (isPublic : Bool) (annotations : List Annotation) (docComments : List String) (span : Span)
  | trait (name : String) (generics : List GenericParam) (methods : List Decl) (isPublic : Bool)
      (docComments : List String) (span : Span)
  | impl (target : String) (traitName : Option String) (generics : List GenericParam)
      (methods : List Decl) (docComments : List String) (span : Span)
  | actor (name : String) (stateFields : List StructField) (handlers : List MessageHandler)
      (annotations : List Annotation) (docComments : List String) (span : Span)
  | typeAlias (name : String) (generics : List GenericParam) (ty : TypeExpr) (isPublic : Bool)
      (docComments : List String) (span : Span)
  | importDecl (path : ImportPath) (docComments : List String) (span : Span)
  | externBlock (abi : String) (items : List Decl) (docComments : List String) (span : Span)
  | const (name : String) (ty : Option TypeExpr) (value : Expr) (isPublic mutable : Bool)
      (docComments : List String) (span : Span)

structure Module where
  name : String
  declarations : List Decl
  span : Span

namespace Decl

/-- The name of a function declaration. -/
def functionName : Decl → Option String
  | function name .. => some name
  | _ => none

def isImport : Decl → Bool
  | importDecl .. => true
  | _ => false

end Decl

end Kryos.Ast
