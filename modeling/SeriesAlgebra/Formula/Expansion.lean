import SeriesAlgebra.Formula.Error
import SeriesAlgebra.Formula.Tree

/-!
# Expansion

A series leaf may name another formula. Expansion puts that formula in the place of
the leaf, and goes on inside it, until only stored series and the names to stop at
are left. What a leaf carries besides its name is kept by wrapping the inlined
formula in a call of `options`.

A formula is never inlined inside itself: the names being inlined form a path, and a
name that is already on it closes a cycle. A path may have at most so many names.
So expansion goes down the levels that are left, and within a level down the tree
(`Tree.mapLeaves`), and always ends.
-/

namespace SeriesAlgebra

namespace Tree

/-- The name of the series leaf with given items. -/
def leafName? (items : List Tree) : Option String := (list items).seriesName?

section

variable {m : Type → Type} [Monad m]

mutual

/-- Every series leaf replaced by its image, the rest kept. What a leaf carries is not looked
into. -/
def mapLeaves (f : String → List Tree → m Tree) : Tree → m Tree
  | atom l => pure (atom l)
  | list items =>
    match leafName? items with
    | some name => f name items
    | none => list <$> mapLeavesOfAll f items

/-- The leaves of several trees replaced. -/
def mapLeavesOfAll (f : String → List Tree → m Tree) : List Tree → m (List Tree)
  | [] => pure []
  | t :: rest => do
    let image ← t.mapLeaves f
    let images ← mapLeavesOfAll f rest
    pure (image :: images)

end

/-- An inlined formula that carries what stood after the name in the leaf. -/
def withCarried (items : List Tree) (body : Tree) : Tree :=
  match items.drop 2 with
  | [] => body
  | carried => list (symbol optionsOperator :: body :: carried)

variable [MonadExceptOf TreeError m]

/-- What a leaf is replaced by: itself if expansion stops at its name or the name is no formula,
else the formula with its own leaves replaced. `inline` refuses a name that must not be inlined
here, and otherwise tells how formulas are expanded one level down. -/
def expandLeaf (resolve : String → m (Option Tree)) (stop : List String)
    (inline : String → m (Tree → m Tree)) (name : String) (items : List Tree) : m Tree := do
  if stop.contains name then
    pure (list items)
  else
    let expandBody ← inline name
    match ← resolve name with
    | none => pure (list items)
    | some formula => withCarried items <$> expandBody formula

/-- Expansion below a path of names being inlined, with `levels` more names allowed. -/
def expandBelow (resolve : String → m (Option Tree)) (stop : List String) (limit : Nat) :
    Nat → List String → Tree → m Tree
  | 0, path => mapLeaves (expandLeaf resolve stop fun name =>
      if path.contains name then throw (.cycle (path ++ [name])) else throw (.tooDeep limit))
  | levels + 1, path => mapLeaves (expandLeaf resolve stop fun name =>
      if path.contains name then throw (.cycle (path ++ [name]))
      else pure (expandBelow resolve stop limit levels (path ++ [name])))

/-- **The formula in which every leaf that names a formula is inlined**, except the names to stop
at; `resolve` tells the formula of a name. -/
def expand (resolve : String → m (Option Tree)) (stop : List String) (limit : Nat) (t : Tree) :
    m Tree :=
  expandBelow resolve stop limit limit [] t

end

end Tree

end SeriesAlgebra
