/-
ScimQuery.Filter — filters and paths over the attributes of a resource.

A filter combines conditions. A condition tests one attribute, or filters
the values of a multi-valued attribute with a value filter in brackets:

    title pr and not (userType eq "Intern") or emails[type eq "work"]

Inside the brackets attributes are tested and no second pair of brackets
occurs; `ValueFilter` and `Filter` are the same combinations over different
conditions. A path names an attribute, the filtered values of one, or a test.

Every kind of phrase has a `text`, its canonical spelling. The fields may
hold any strings: whether the text can be read again is another question.
-/
import ScimQuery.Filter.Combination
import ScimQuery.Literal

namespace ScimQuery

/-! ## Phrases -/

/-- A reference to an attribute, with its schema and one sub-attribute if
they are given. -/
structure AttributePath where
  schema : Option String
  name : String
  sub : Option String
  deriving DecidableEq, Repr

/-- A test of one attribute. -/
inductive AttributeTest where
  /-- The attribute has a value. -/
  | present (path : AttributePath)
  /-- The attribute compares with a literal as the operator says. -/
  | compare (path : AttributePath) (operator : Comparison) (literal : Literal)
  deriving DecidableEq, Repr

/-- A filter on the values of an attribute. -/
abbrev ValueFilter := Disjunction AttributeTest

/-- The values of an attribute that pass a filter. -/
structure ValuePath where
  path : AttributePath
  filter : ValueFilter
  deriving DecidableEq, Repr

/-- What a filter combines. -/
inductive Condition where
  | test (test : AttributeTest)
  | values (values : ValuePath)
  deriving DecidableEq, Repr

/-- A filter on resources. -/
abbrev Filter := Disjunction Condition

/-- What a path refers to. -/
inductive Path where
  | attribute (path : AttributePath)
  /-- The filtered values of an attribute, or one sub-attribute of them. -/
  | values (values : ValuePath) (sub : Option String)
  | test (test : AttributeTest)
  deriving DecidableEq, Repr

/-- The attribute that is tested. -/
def AttributeTest.path : AttributeTest → AttributePath
  | .present path => path
  | .compare path _ _ => path

/-! ## Text -/

/-- A sub-attribute with the dot in front of it, or nothing. -/
def subText : Option String → String
  | none => ""
  | some name => "." ++ name

/-- A schema with the colon behind it, or nothing. -/
def schemaText : Option String → String
  | none => ""
  | some urn => urn ++ ":"

/-- `schema:name.sub`, with the parts that are there. -/
def AttributePath.text (path : AttributePath) : String :=
  schemaText path.schema ++ path.name ++ subText path.sub

/-- `path pr`, or `path op literal`. -/
def AttributeTest.text : AttributeTest → String
  | .present path => path.text ++ " " ++ Keyword.present.word
  | .compare path operator literal =>
    path.text ++ " " ++ operator.word ++ " " ++ literal.text

/-- The text of a filter in brackets. -/
def ValueFilter.text (filter : ValueFilter) : String :=
  Disjunction.text AttributeTest.text filter

/-- `path[filter]`. -/
def ValuePath.text (values : ValuePath) : String :=
  values.path.text ++ "[" ++ ValueFilter.text values.filter ++ "]"

/-- The text of a condition. -/
def Condition.text : Condition → String
  | .test t => t.text
  | .values v => v.text

/-- The text of a filter. -/
def Filter.text (filter : Filter) : String :=
  Disjunction.text Condition.text filter

/-- The text of a path. -/
def Path.text : Path → String
  | .attribute path => path.text
  | .values v sub => v.text ++ subText sub
  | .test t => t.text

end ScimQuery
