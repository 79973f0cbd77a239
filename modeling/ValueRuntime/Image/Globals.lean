import ValueRuntime.Image.Statement
import ValueRuntime.Machine.State

/-! # Globals in images

    The globals of a runtime can be saved to an image and loaded from one. Saving stores all
    globals that hold no function, or nothing if it fails. Loading decodes all stored values
    before it assigns the first, so a load that fails leaves the runtime as it was.
-/

namespace ValueRuntime

namespace Machine

/-- The globals and their contents, in the order of their names. -/
def globalValues (m : Machine) : List (Bytes × Datum) :=
  m.globals.map fun (name, cell) => (name, m.heap.view ((m.cells[cell]?).getD .nil))

/-- Stores a value in a global, which is made when there is none yet. The cell of the global
    stays the same. -/
def setGlobal (m : Machine) (name : Bytes) (value : Datum) : Machine :=
  let store : Action Unit := do
    let v ← Action.alloc value
    let cell ← Action.globalCell name
    Action.writeCell (some cell) v
  (store.run m).2

end Machine

/-- **Saves the globals of a runtime.** The result counts them. -/
def Statement.saveGlobals (m : Machine) (now : Int) : Statement Nat :=
  save m.globalValues m.id now

namespace Image

/-- The image after a save that succeeds, with the number of globals. -/
def saveGlobals (image : Image) (m : Machine) (now : Int) : Except ImageError (Nat × Image) :=
  (Statement.saveGlobals m now).outcome image

/-- **Loads all stored values into the globals of a runtime.** The result counts them. -/
def load (image : Image) : ExceptT ImageError (StateM Machine) Nat := do
  let values ← image.values
  values.forM fun (name, value) => modify (·.setGlobal name value)
  return values.length

/-- The runtime after a load that succeeds, with the number of values. -/
def loadGlobals (image : Image) (m : Machine) : Except ImageError (Nat × Machine) :=
  let (result, m) := image.load.run m
  result.map (·, m)

end Image

end ValueRuntime
