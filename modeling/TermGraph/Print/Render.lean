import TermGraph.Print.Occurrences

/-!
The text of a node with all that it depends on. A literal prints as itself and a simple node, one
without node arguments, in full wherever it stands. Any other node prints in full where it is met
first; if it is shared, it gets the next label there, as in `(add (num 1) (num 2))[$0]`, and prints
as `$0` wherever it is met again. Nodes are met in the order of their records, and within a record
in the order of its arguments. A note prints as it is stored.
-/

namespace TermGraph

/-- The full text of a node. -/
structure Printed where
  text : String
  simple : Bool

/-- What is written so far: full texts, the nodes met as arguments, and the labels given. -/
structure Page where
  texts : Std.TreeMap Node Printed := ∅
  met : Std.TreeSet Node := ∅
  labels : Std.TreeMap Node Nat := ∅

namespace Page

/-- The text of a label. -/
def labelText (k : Nat) : String := "$" ++ toString k

/-- The full text of a node; its position while there is none. -/
def printed (page : Page) (n : Node) : Printed := page.texts.getD n ⟨n.text, false⟩

/-- Writes an argument. -/
def arg (o : Occurrences) : Page → Value → String × Page
  | page, .node n =>
    match page.printed n with
    | ⟨text, simple⟩ =>
      if simple then (text, page)
      else if page.met.contains n then
        match page.labels[n]? with
        | some k => (labelText k, page)
        | none => (text, page)
      else
        match page with
        | ⟨texts, met, labels⟩ =>
          if o.isShared n then
            let k := labels.getD n labels.size
            (text ++ "[" ++ labelText k ++ "]", ⟨texts, met.insert n, labels.insert n k⟩)
          else (text, ⟨texts, met.insert n, labels⟩)
  | page, v => (v.text, page)

/-- Writes arguments one after the other. -/
def args (o : Occurrences) : Page → List Value → List String × Page
  | page, [] => ([], page)
  | page, v :: vs =>
    match page.arg o v with
    | (t, page) =>
      match page.args o vs with
      | (ts, page) => (t :: ts, page)

/-- Writes a node in full. -/
def add (o : Occurrences) (page : Page) (e : Expr) : Page :=
  match page.args o e.args with
  | (ts, ⟨texts, met, labels⟩) =>
    ⟨texts.insert e.node ⟨applied e.head ts, e.isSimple⟩, met, labels⟩

end Page

namespace Graph

/-- The text of the root with all that it depends on. -/
def render (g : Graph) (root : Node) : Except Error String := do
  let e ← g.read root
  if e.isNote then return e.text
  let es ← g.unfolding [root]
  let page := es.foldl (Page.add (Occurrences.ofExprs es)) {}
  return (page.texts[root]?.map Printed.text).getD ""

end Graph

end TermGraph
