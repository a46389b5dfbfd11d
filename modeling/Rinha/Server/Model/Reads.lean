import Rinha.Server.Model.FromHttp
/-!
# The bytes `from_http.cc` reads

The functions of the parser once more, each with the indices it reads the
buffer at, in order, instead of what it computes. An index counts from
`data`, so it may be past the text.
-/

namespace Rinha

/-- The places a search looks at: up to the first hit, and that. -/
def lookedAt (p : ℕ → Bool) : List ℕ → List ℕ
  | [] => []
  | i :: indices => i :: if p i then [] else lookedAt p indices

namespace StringView

/-- The reads of `body.find(c, pos)`. -/
def findReads (view : StringView) (c : UInt8) (pos : ℕ) : List ℕ :=
  lookedAt (fun i => view.get i == c) (List.range' pos (view.size - pos))

/-- Those of a comparison with `s` at index `i`, up to the first difference. -/
def hasAtReads (view : StringView) (s : Bytes) (i : ℕ) : List ℕ :=
  if i + s.length ≤ view.size then
    (lookedAt (fun k => view.get (i + k) != s.getD k 0) (List.range s.length)).map (i + ·)
  else []

/-- Those of `http.find(s)`. -/
def findTextReads (view : StringView) (s : Bytes) : List ℕ :=
  (lookedAt (fun i => view.hasAt s i) (List.range view.size)).flatMap (view.hasAtReads s)

end StringView

/-- The reads of the loop of `SubstringToInt`. -/
def substringToIntReads (body : StringView) : List ℕ → List ℕ
  | [] => []
  | i :: indices => i :: if !isDigit (body.get i) then [] else substringToIntReads body indices

/-- The reads of `ParseJsonBody`. -/
def parseJsonBodyReads (body : StringView) : List ℕ :=
  let numEndIdx := body.find 44 numBeginIdx
  let numDotIdx := body.find 46 numBeginIdx
  body.findReads 44 numBeginIdx ++ body.findReads 46 numBeginIdx ++
  if numDotIdx < numEndIdx ∨ numEndIdx = npos then [] else
  substringToIntReads body (List.range' numBeginIdx (numEndIdx - numBeginIdx)) ++
  if !(substringToInt body numBeginIdx numEndIdx).1 then [] else
  let tipoIdx := numEndIdx + 11
  [tipoIdx] ++
  if body.get tipoIdx ≠ 99 ∧ body.get tipoIdx ≠ 100 then [] else
  let startDescIdx := tipoIdx + 18
  let endDescIdx := body.find 34 startDescIdx
  body.findReads 34 startDescIdx ++
  if endDescIdx = npos then [] else
  if endDescIdx + 2 ≠ body.size then [] else
  [endDescIdx + 1] ++
  if body.get (endDescIdx + 1) ≠ 125 then [] else
  if endDescIdx - startDescIdx > 10 ∨ endDescIdx - startDescIdx < 1 then [] else
  List.range' startDescIdx (endDescIdx - startDescIdx)

/-- The reads of `FromHttp`. -/
def fromHttpReads (http : StringView) : List ℕ :=
  http.hasAtReads kGetVerb 0 ++
  if http.startsWith kGetVerb then [14] else
  [15] ++
  match simpleAtoi (http.get 15) with
  | none => []
  | some _ =>
      let beginBodyIdx := http.findText kPostBeginBody
      http.findTextReads kPostBeginBody ++
      if beginBodyIdx = npos then [] else
      (parseJsonBodyReads (http.suffix (beginBodyIdx + 4))).map (beginBodyIdx + 4 + ·)

end Rinha
