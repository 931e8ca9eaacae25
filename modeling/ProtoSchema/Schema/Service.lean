import ProtoSchema.Schema.Check
import ProtoSchema.Schema.Value

/-!
# Services

A service is a list of methods of different names; a method takes a message of one type and answers
with a message of another.
-/

namespace ProtoSchema

/-- A method of a service. -/
structure Method where
  name : String
  doc : String
  request : String
  response : String
  options : List Setting
  deriving DecidableEq, Repr

namespace Method

/-- Checks a method by itself: it and both its types have names. -/
def make (name doc request response : String) (options : List Setting) :
    Except Violation Method := do
  demand (name ≠ "") (.emptyName .rpc)
  demand (request ≠ "") (.emptyName .requestType)
  demand (response ≠ "") (.emptyName .responseType)
  return ⟨name, doc, request, response, options⟩

/-- The value of an option. -/
def option? (m : Method) (name : String) : Option Value :=
  Setting.find? m.options name

end Method

/-- A service. -/
structure Service where
  name : String
  fullName : String
  doc : String
  options : List Setting
  methods : List Method
  deriving DecidableEq, Repr

namespace Service

/-- Checks a service: it has a name and no two methods share one. -/
def make (name fullName doc : String) (options : List Setting) (methods : List Method) :
    Except Violation Service := do
  demand (name ≠ "") (.emptyName .service)
  refuse ((firstRepeat? [] (methods.map (·.name))).map (.duplicateName fullName))
  return ⟨name, fullName, doc, options, methods⟩

/-- The method of a name. -/
def method? (s : Service) (name : String) : Option Method :=
  s.methods.find? (·.name = name)

end Service

end ProtoSchema
