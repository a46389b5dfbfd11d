import Rinha.Router.HandleMessage
/-!
# What the other end of a pair is sent

`HandleMessage` hands all it has read to one `write` and does not look at
what that returns. So the stream a descriptor is sent is what was read for
it if and only if every `write` took all it was given (`forwarded_iff`).
-/

namespace Rinha
namespace Router

variable {β : Type} {tables : Tables}

/-- The bytes a socket takes of those a `write` gives it. -/
def taken : WriteResult → List β → List β
  | .wrote count, bytes => bytes.take count
  | .eagain, _ => []
  | .error, _ => []

/-- The stream a descriptor is sent. -/
def streamTo (dst : ℕ) : List (SocketOp β) → List β
  | [] => []
  | .write fd bytes result :: ops =>
      (if fd = dst then taken result bytes else []) ++ streamTo dst ops
  | .rearm _ :: ops => streamTo dst ops

/-- What is done before any descriptor is rearmed. -/
def beforeRearm : List (SocketOp β) → List (SocketOp β)
  | [] => []
  | .write fd bytes result :: ops => .write fd bytes result :: beforeRearm ops
  | .rearm _ :: _ => []

/-- A call of `HandleMessage` on a pair: what the `read`s up to `EAGAIN`
return, and what the `write` does. -/
structure Call (β : Type) (tables : Tables) where
  src : ℕ
  dst : ℕ
  found : tables.dstFd src = .ok dst
  chunks : List (List β)
  short : chunks.flatten.length < kBufferSize
  result : WriteResult
  fits : ∀ count, result = .wrote count → count ≤ chunks.flatten.length

/-- The bytes read from the source. -/
def Call.bytes (call : Call β tables) : List β := call.chunks.flatten

def Call.ops (call : Call β tables) : List (SocketOp β) :=
  tables.messageOps call.src call.dst .eagain call.chunks call.result

/-- The destination gets the bytes that were read, before the source is
rearmed. -/
def Call.Forwards (call : Call β tables) : Prop :=
  streamTo call.dst (beforeRearm call.ops) = call.bytes

/-- The `write`, if there is one, takes all of them. -/
def Call.Full (call : Call β tables) : Prop :=
  call.bytes ≠ [] → call.result = .wrote call.bytes.length

/-! ## One call -/

theorem taken_isPrefix (result : WriteResult) (bytes : List β) : taken result bytes <+: bytes := by
  cases result with
  | wrote count => exact List.take_prefix count bytes
  | eagain => exact List.nil_prefix
  | error => exact List.nil_prefix

theorem streamTo_append (dst : ℕ) (ops ops' : List (SocketOp β)) :
    streamTo dst (ops ++ ops') = streamTo dst ops ++ streamTo dst ops' := by
  induction ops with
  | nil => rfl
  | cons op ops ih =>
      cases op with
      | write fd bytes result => simp only [List.cons_append, streamTo, ih, List.append_assoc]
      | rearm src => exact ih

theorem Call.dataOps_eq (call : Call β tables) :
    tables.dataOps call.src .eagain call.chunks call.result = .ok call.ops := by
  rw [Tables.dataOps, call.found]
  rfl

/-- A call does nothing on an empty socket, and else one `write`. -/
theorem Call.ops_eq (call : Call β tables) :
    call.ops = if call.bytes.length > 0 then
      [.write call.dst call.bytes call.result, .rearm call.src] else [] := by
  rw [Call.ops, Tables.messageOps, handleMessage_again call.short]
  rfl

/-- The destination gets what its socket takes, and nobody else anything. -/
theorem Call.streamTo_ops (call : Call β tables) (dst : ℕ) :
    streamTo dst call.ops = if call.dst = dst then taken call.result call.bytes else [] := by
  rw [call.ops_eq]
  by_cases hread : call.bytes.length > 0
  · rw [if_pos hread]
    simp only [streamTo, List.append_nil]
  · have hnil : call.bytes = [] := List.eq_nil_of_length_eq_zero (by omega)
    have htaken := taken_isPrefix call.result call.bytes
    rw [hnil, List.prefix_nil] at htaken
    rw [if_neg hread, hnil, htaken, ite_self]
    rfl

theorem Call.beforeRearm_ops (call : Call β tables) (dst : ℕ) :
    streamTo dst (beforeRearm call.ops) = streamTo dst call.ops := by
  rw [call.ops_eq]
  split <;> rfl

theorem Call.taken_iff (call : Call β tables) :
    taken call.result call.bytes = call.bytes ↔ call.Full := by
  have hfits := call.fits
  rw [Call.Full]
  cases hresult : call.result with
  | wrote count =>
      have hle : count ≤ call.bytes.length := hfits count hresult
      rw [taken, List.take_eq_self_iff]
      constructor
      · rintro hge -
        rw [Nat.le_antisymm hle hge]
      · intro hfull
        by_cases hnil : call.bytes = []
        · simp [hnil]
        · exact Nat.le_of_eq (WriteResult.wrote.inj (hfull hnil)).symm
  | eagain =>
      refine ⟨fun hnil hread => absurd hnil.symm hread, fun hfull => ?_⟩
      by_contra hread
      cases hfull (Ne.symm hread)
  | error =>
      refine ⟨fun hnil hread => absurd hnil.symm hread, fun hfull => ?_⟩
      by_contra hread
      cases hfull (Ne.symm hread)

/-- **One call** forwards what it read if and only if the `write` took it. -/
theorem Call.forwards_iff (call : Call β tables) : call.Forwards ↔ call.Full := by
  rw [Call.Forwards, call.beforeRearm_ops, call.streamTo_ops, if_pos rfl]
  exact call.taken_iff

/-! ## All the calls on a pair -/

/-- What a descriptor is sent is a part of what was read for it. -/
theorem streamTo_sublist (calls : List (Call β tables)) (dst : ℕ) :
    (streamTo dst (calls.flatMap Call.ops)).Sublist
      ((calls.filter (·.dst = dst)).flatMap Call.bytes) := by
  induction calls with
  | nil => exact List.nil_sublist _
  | cons call calls ih =>
      rw [List.flatMap_cons, streamTo_append, call.streamTo_ops]
      by_cases hdst : call.dst = dst
      · rw [if_pos hdst, List.filter_cons_of_pos (by simpa using hdst), List.flatMap_cons]
        exact (taken_isPrefix _ _).sublist.append ih
      · rw [if_neg hdst, List.filter_cons_of_neg (by simpa using hdst)]
        exact ih

/-- What the socket took of one call, and then of the others, is all that was
read only if each part is. -/
theorem append_eq_iff {sent read rest rest' : List β} (h : sent <+: read)
    (hrest : rest.Sublist rest') :
    sent ++ rest = read ++ rest' ↔ sent = read ∧ rest = rest' := by
  constructor
  · intro heq
    -- neither part is longer than what it is a part of, so both are as long
    have hlen := congrArg List.length heq
    rw [List.length_append, List.length_append] at hlen
    have hle := h.length_le
    have hle' := hrest.length_le
    exact List.append_inj heq (by omega)
  · rintro ⟨rfl, rfl⟩
    rfl

/-- **The stream forwarded.** Each call on the pair leaves the tables as they
are, and forwards what it read before the source is rearmed if and only if
the `write` took all of it; and the stream a descriptor is sent is that of
the bytes read for it, in order, if and only if each of these `write`s
did. -/
theorem forwarded_iff (calls : List (Call β tables)) (dst : ℕ) :
    (∀ call ∈ calls,
        tables.dataOps call.src .eagain call.chunks call.result = .ok call.ops ∧
        (tables.handleMessage call.src .eagain call.chunks).2 = .ok (tables, false) ∧
        (call.Forwards ↔ call.Full)) ∧
      (streamTo dst (calls.flatMap Call.ops) = (calls.filter (·.dst = dst)).flatMap Call.bytes ↔
        ∀ call ∈ calls, call.dst = dst → call.Full) := by
  refine ⟨fun call _ => ⟨call.dataOps_eq, ?_, call.forwards_iff⟩, ?_⟩
  · rw [handleMessage_again call.short]
  induction calls with
  | nil => exact ⟨nofun, fun _ => rfl⟩
  | cons call calls ih =>
      rw [List.forall_mem_cons, List.flatMap_cons, streamTo_append, call.streamTo_ops]
      by_cases hdst : call.dst = dst
      · rw [if_pos hdst, List.filter_cons_of_pos (by simpa using hdst), List.flatMap_cons,
          append_eq_iff (taken_isPrefix _ _) (streamTo_sublist calls dst), call.taken_iff, ih]
        simp only [hdst, true_implies]
      · rw [if_neg hdst, List.filter_cons_of_neg (by simpa using hdst), List.nil_append, ih]
        simp only [hdst, false_implies, true_and]

/-- Client 60 and the unix connection 7 are a pair. -/
def onePair : Tables := Tables.blank.pair .one ⟨fun _ => none, 0, 0⟩ 60 7

theorem two_le {count : ℕ} (h : WriteResult.wrote 2 = .wrote count) :
    count ≤ [[1, 2], [3]].flatten.length := by
  cases h
  decide

/-- Three bytes are read for it in two pieces, and the `write` takes two. -/
def cutCall : Call ℕ onePair where
  src := 60
  dst := 7
  found := rfl
  chunks := [[1, 2], [3]]
  short := by decide
  result := .wrote 2
  fits := fun _ => two_le

theorem forwarded_iff_cut :
    ¬cutCall.Forwards ∧ streamTo 7 ([cutCall].flatMap Call.ops) ≠ cutCall.bytes := by
  obtain ⟨hcalls, hstream⟩ := forwarded_iff [cutCall] 7
  have hcut : ¬cutCall.Full := fun hfull => absurd (hfull (by decide)) (by decide)
  refine ⟨fun hforwards => hcut ((hcalls cutCall (by simp)).2.2.mp hforwards), fun heq => ?_⟩
  exact hcut (hstream.mp heq cutCall (by simp) rfl)

/-- **A tail is lost**: the connection takes two bytes of the three that
were read, and the third is not sent. -/
theorem not_forwarded_cut :
    (onePair.dataOps 60 .eagain [[1, 2], [3]] (.wrote 2)).map (streamTo 7) = .ok [1, 2] ∧
      [1, 2] ≠ [[1, 2], [3]].flatten :=
  ⟨rfl, by decide⟩

end Router
end Rinha
