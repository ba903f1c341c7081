import TraceFlow.Graph.Basic

set_option autoImplicit false

namespace TraceFlow.Graph

def line (indent : Nat) (text : String) : String :=
  String.ofList (List.replicate (2 * indent) ' ') ++ text ++ "\n"

def arrayLine (constants : Dict Tensor) (entry : String × Descriptor) : Outcome String := do
  let mark := if constants.contains entry.1 then " const" else ""
  return entry.1 ++ " : " ++ (← entry.2.text) ++ mark

def symbolText (entry : String × ElemType) : String :=
  entry.1 ++ ": " ++ entry.2.name

def accessLine (join : String) (entry : String × Access) : Outcome String := do
  return entry.1 ++ join ++ (← entry.2.text)

def mapText (indent : Nat) (m : MapNode) : Outcome String := do
  let axes := ", ".intercalate (m.axes.map Axis.text)
  let dynamic ← m.dynamic.entries.mapM (accessLine " := ")
  let inputs ← m.inputs.entries.mapM (accessLine " <- ")
  let outputs ← m.outputs.entries.mapM (accessLine " -> ")
  let body := (dynamic ++ inputs ++ [m.code] ++ outputs).map (line (indent + 1))
  return line indent s!"map {m.label} [{axes}] \x7b" ++ String.join body ++ line indent "\x7d"

def bindingText (entry : String × Binding) : Outcome String := do
  return entry.1 ++ " = " ++ (← entry.2.text)

def edgeText (e : Edge) : Outcome String := do
  let guard := match e.guard? with
    | some guard => " if " ++ guard.text
    | none => ""
  let assignments ← e.assignments.entries.mapM bindingText
  let assigned := if assignments.isEmpty then "" else " [" ++ ", ".intercalate assignments ++ "]"
  return stateText e.source ++ " -> " ++ stateText e.target ++ guard ++ assigned

def connectors (names : Dict String) : String :=
  ", ".intercalate (names.entries.map fun (inner, outer) => inner ++ "=" ++ outer)

def headText (indent : Nat) (g : Graph) : Outcome String := do
  let args := if g.args.isEmpty then "" else
    line (indent + 1) ("args: (" ++ ", ".intercalate g.args ++ ")")
  let lines ← g.arrays.entries.mapM (arrayLine g.constants)
  let arrays := if lines.isEmpty then "" else
    line (indent + 1) "arrays:" ++ String.join (lines.map (line (indent + 2)))
  let symbols := if g.symbols.isEmpty then "" else
    line (indent + 1) ("symbols: " ++ ", ".intercalate (g.symbols.entries.map symbolText))
  return line indent s!"sdfg @{g.name} \x7b" ++ args ++ arrays ++ symbols

def tailText (indent : Nat) (edges : List Edge) : Outcome String := do
  let lines ← edges.mapM edgeText
  let listed := if lines.isEmpty then "" else
    line (indent + 1) "edges:" ++ String.join (lines.map (line (indent + 2)))
  return listed ++ line indent "\x7d"

mutual

def renderAt (indent : Nat) : Graph → Outcome String
  | ⟨name, arrays, constants, symbols, states, edges, start, args⟩ => do
    let head ← headText indent ⟨name, arrays, constants, symbols, [], [], start, args⟩
    let body ← stateListText (indent + 1) start 0 states
    return head ++ body ++ (← tailText indent edges)

def stateListText (indent start : Nat) : Nat → List State → Outcome String
  | _, [] => .ok ""
  | id, ⟨label, nodes⟩ :: rest => do
    let mark := if id = start then " (start)" else ""
    let body ← nodeListText (indent + 1) nodes
    let after ← stateListText indent start (id + 1) rest
    return line indent s!"state {stateText id} \"{label}\"{mark}:" ++ body ++ after

def nodeListText (indent : Nat) : List Node → Outcome String
  | [] => .ok ""
  | .copy source target :: rest => do
    let source ← source.text
    let target ← target.text
    return line indent s!"copy {source} -> {target}" ++ (← nodeListText indent rest)
  | .map m :: rest => do
    let text ← mapText indent m
    return text ++ (← nodeListText indent rest)
  | .call site callee :: rest => do
    let bound := s!"in({connectors site.inputs}) out({connectors site.outputs})"
    let body ← renderAt (indent + 1) callee
    let text := line indent s!"nested {site.label} {bound} \x7b" ++ body ++ line indent "\x7d"
    return text ++ (← nodeListText indent rest)

end

def render (g : Graph) : Outcome String :=
  renderAt 0 g

def page (g : Graph) : Outcome String := do
  let body := Text.markup (← g.render)
  return "<!DOCTYPE html>\n<html>\n<head><meta charset=\"utf-8\"><title>" ++ Text.markup g.name ++
    "</title></head>\n<body>\n<pre>\n" ++ body ++ "</pre>\n</body>\n</html>\n"

end TraceFlow.Graph
