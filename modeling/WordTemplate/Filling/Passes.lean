import WordTemplate.Filling.Inline
import WordTemplate.Filling.Lines
import WordTemplate.Filling.Rows
import WordTemplate.Filling.Singles
import WordTemplate.Wordml.Runs

/-!
Filling a document with parameters, in passes over the whole document.
-/

namespace WordTemplate.Filling

open Markup

def fill (document : Document) (params : Params) : Document :=
  let document := Wordml.repairRuns (markLists document)
  let document := fillSingles document params
  let document := (expandRows document params).1
  let document := (expandLeftovers document params).1
  let document := fillInline document params
  -- Once more, since the copies of rows address single parameters.
  let document := fillSingles document params
  let document := sweepUnset document params
  -- By now all values stand in the text, with the line feeds that they bring.
  stripMarks (splitLines document).1

end WordTemplate.Filling
