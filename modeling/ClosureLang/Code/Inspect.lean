import ClosureLang.Code.Basic
import ClosureLang.Text.Quoted

/-!
# Inspected values

The full structure of values and code as text, for messages about values that should not be where they are.
-/

namespace ClosureLang

namespace Inspect

/-- Fields in braces after the name of a record. -/
def record (name : String) (fields : List (String × String)) : String :=
  name ++ " \x7b " ++ String.intercalate ", " (fields.map fun (key, value) => key ++ ": " ++ value) ++ " \x7d"

def tagged (name content : String) : String := name ++ "(" ++ content ++ ")"

def list (items : List String) : String := "[" ++ String.intercalate ", " items ++ "]"

def option : Option String → String
  | some content => tagged "Some" content
  | none => "None"

end Inspect

open Inspect

def Builtin.inspect (b : Builtin) : String :=
  match b with
  | add => "Add"
  | sub => "Sub"
  | mul => "Mul"
  | div => "Div"
  | mod => "Mod"
  | eq => "Eq"
  | neq => "Neq"
  | lt => "Lt"
  | le => "Le"
  | gt => "Gt"
  | ge => "Ge"
  | and => "And"
  | or => "Or"
  | neg => "Neg"
  | not => "Not"

def CaptureLoad.inspect (c : CaptureLoad) : String :=
  let source :=
    match c.origin with
    | .frame offset => tagged "Frame" (toString offset)
    | .itself => "Itself"
  record "CaptureLoad" [("slot", Word.text c.slot), ("source", source)]

mutual

def Code.inspect : Code → String
  | .const value => tagged "Const" value.inspect
  | .load offset => tagged "FrameLoad" (toString offset)
  | .global index => tagged "Prelude" (toString index)
  | .store slot value => record "Store" [("slot", Word.text slot), ("value", value.inspect)]
  | .block stores result => record "Block" [("stores", list (Code.inspectAll stores)), ("result", result.inspect)]
  | .cond test onTrue onFalse line =>
    record "Cond"
      [("test", test.inspect), ("then", onTrue.inspect), ("otherwise", onFalse.inspect), ("line", toString line)]
  | .closure routine => tagged "MakeClosure" routine.inspect
  | .call callee args line =>
    record "Call" [("callee", callee.inspect), ("args", list (Code.inspectAll args)), ("line", toString line)]

def Code.inspectAll : List Code → List String
  | [] => []
  | c :: cs => c.inspect :: Code.inspectAll cs

def Routine.inspect : Routine → String
  | ⟨name, arity, frameSize, captures, body⟩ =>
    record "Function"
      [("name", option (name.map Text.quote)), ("arity", toString arity), ("frame_size", Word.text frameSize),
       ("captures", list (captures.map CaptureLoad.inspect)), ("body", body.inspect)]

def Value.inspect : Value → String
  | .number x => tagged "Number" (Number.render Number.inspected x)
  | .boolean b => tagged "Boolean" (if b then "true" else "false")
  | .builtin b => tagged "Closure" (record "Closure" [("code", tagged "Builtin" b.inspect), ("captured", list [])])
  | .closure routine captured =>
    tagged "Closure"
      (record "Closure" [("code", tagged "Lambda" routine.inspect), ("captured", list (Value.inspectAll captured))])

def Value.inspectAll : List Value → List String
  | [] => []
  | v :: vs => v.inspect :: Value.inspectAll vs

end

end ClosureLang
