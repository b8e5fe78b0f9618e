import FieldLookahead.Syntax.TypeForm
import FieldLookahead.Query.Document

/-! Schema documents: type definitions, type extensions and root operations. Directives and
default values are left out. -/

namespace FieldLookahead.Sdl

open Syntax

/-- A named input: an argument of a field, or a field of an input type. -/
structure Input where
  name : String
  form : TypeForm
  deriving DecidableEq, Repr

structure Field where
  name : String
  form : TypeForm
  arguments : List Input
  description? : Option String
  position : Position
  deriving DecidableEq, Repr

structure EnumValue where
  name : String
  position : Position
  deriving DecidableEq, Repr

/-- What a definition or an extension of a type lists. -/
inductive TypeBody where
  | scalar
  | object (interfaces : List String) (fields : List Field)
  | interface (interfaces : List String) (fields : List Field)
  | union (members : List String)
  | enum (values : List EnumValue)
  | input (fields : List Input)
  deriving DecidableEq, Repr

structure TypeDefinition where
  name : String
  description? : Option String
  position : Position
  body : TypeBody
  deriving DecidableEq, Repr

structure TypeExtension where
  name : String
  position : Position
  body : TypeBody
  deriving DecidableEq, Repr

structure Roots where
  position : Position
  query? : Option String
  mutation? : Option String
  subscription? : Option String
  deriving DecidableEq, Repr

namespace Roots

def get? (roots : Roots) : Query.OperationKind → Option String
  | .query => roots.query?
  | .mutation => roots.mutation?
  | .subscription => roots.subscription?

def set (roots : Roots) (typeName : String) : Query.OperationKind → Roots
  | .query => { roots with query? := some typeName }
  | .mutation => { roots with mutation? := some typeName }
  | .subscription => { roots with subscription? := some typeName }

end Roots

inductive Definition where
  | roots (roots : Roots)
  | type (definition : TypeDefinition)
  | extension (extension : TypeExtension)
  | directive
  deriving DecidableEq, Repr

abbrev Document := List Definition

end FieldLookahead.Sdl
