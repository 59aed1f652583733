import OnnxFusion.Value.Basic
import OnnxFusion.Model.Basic
/-!
# Optimizer configuration

Three fields, any values: whether matches may overlap (default false), the log level
(default 20) and whether to visualise (default false). Building from named fields refuses a
name that is not a field.

Updating sets each named attribute that the configuration has, in order, and ignores other
names. Besides the fields, a configuration has the attributes of any object, and writing
them acts as it does on any object:

* `update` stores the value under the name of the update operation itself, so every later
  update calls that value and fails, since no JSON value can be called;
* `__dict__` replaces the attribute table by a record: the fields read from it, and fields it
  does not hold read their defaults; any other value is refused;
* `__class__` refuses every value, and `__weakref__` cannot be written;
* every other attribute takes the value without visible effect.
-/

set_option autoImplicit false

namespace OnnxFusion

/-- The optimizer's settings. -/
structure Config where
  allowOverlap : Value := .bool false
  logLevel : Value := .int 20
  visualize : Value := .bool false
  /-- A value stored under the name of the update operation, which it then hides. -/
  updateShadow : Option Value := none
  deriving Inhabited

namespace Config

/-- The field names. -/
def fieldNames : List String := ["allow_overlap", "log_level", "visualize"]

/-- The names of the attributes every object has besides its fields. -/
def objectAttributes : List String :=
  ["__annotations__", "__class__", "__dataclass_fields__", "__dataclass_params__", "__delattr__",
    "__dict__", "__dir__", "__doc__", "__eq__", "__format__", "__ge__", "__getattribute__",
    "__getstate__", "__gt__", "__hash__", "__init__", "__init_subclass__", "__le__", "__lt__",
    "__match_args__", "__module__", "__ne__", "__new__", "__reduce__", "__reduce_ex__",
    "__repr__", "__setattr__", "__sizeof__", "__str__", "__subclasshook__", "__weakref__",
    "update"]

/-- Sets one field by name; other names change nothing. -/
def set (c : Config) (k : String) (v : Value) : Config :=
  if k == "allow_overlap" then { c with allowOverlap := v }
  else if k == "log_level" then { c with logLevel := v }
  else if k == "visualize" then { c with visualize := v }
  else if k == "update" then { c with updateShadow := some v }
  else c

/-- The configuration read from a replacement attribute table. -/
def ofTable (entries : List (String × Value)) : Config :=
  entries.foldl (fun c (k, v) => if fieldNames.contains k || k == "update" then c.set k v else c) {}

/-- Writes one attribute. -/
def write (c : Config) (k : String) (v : Value) : Outcome Config :=
  if k == "__class__" then .error (.notAClass v.typeName)
  else if k == "__weakref__" then .error (.readOnlyAttribute k "Config")
  else if k == "__dict__" then
    match v with
    | .dict entries => .ok (ofTable entries)
    | _ => .error (.notAnAttributeTable v.typeName)
  else .ok (c.set k v)

/-- Updates the attributes named in a record, ignoring names the configuration does not
have; an update hidden by a stored value fails. -/
def update (c : Config) (r : Record) : Outcome Config :=
  match c.updateShadow with
  | some v => .error (.notCallable v.typeName)
  | none =>
    r.foldlM (fun c (k, v) =>
      if fieldNames.contains k || objectAttributes.contains k then c.write k v else .ok c) c

/-- Builds a configuration from named fields; an unknown name is a fault. -/
def ofRecord (r : Record) : Outcome Config :=
  match r.find? (fun (k, _) => !fieldNames.contains k) with
  | some (k, _) => .error (.unexpectedField k)
  | none => .ok (r.foldl (fun c (k, v) => c.set k v) {})

/-- The fields as a record. -/
def toRecord (c : Config) : Record :=
  [("allow_overlap", c.allowOverlap), ("log_level", c.logLevel), ("visualize", c.visualize)]

end Config

end OnnxFusion
