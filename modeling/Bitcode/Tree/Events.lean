import Bitcode.Tree.Body

/-!
Blocks from their events. Events that do not fit, such as a record outside of any block, are passed
over, and so are blocks that are never left.
-/

namespace Bitcode.Tree

/-- The blocks that have been entered, innermost first, with their entries in reverse order, and the
finished blocks outside of any block in reverse order. -/
structure Growth where
  opened : List Block := []
  finished : List Block := []
  deriving DecidableEq, Repr, Inhabited

/-- Take one event. -/
def Growth.step (growth : Growth) (event : Event) : Growth :=
  match event, growth.opened with
  | .enter id bits _, opened => { growth with opened := ⟨id, bits, .empty⟩ :: opened }
  | .record item, inner :: outer =>
      { growth with opened := { inner with body := .record item inner.body } :: outer }
  | .exit, [inner] =>
      { opened := [], finished := { inner with body := inner.body.reverse } :: growth.finished }
  | .exit, inner :: next :: outer =>
      let body := .block inner.id inner.bits inner.body.reverse next.body
      { growth with opened := { next with body } :: outer }
  | _, [] => growth

/-- The blocks that events describe. -/
def ofEvents (events : List Event) : List Block :=
  (events.foldl Growth.step {}).finished.reverse

end Bitcode.Tree
