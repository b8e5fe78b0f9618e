import FieldLookahead.Lookahead.Request
import FieldLookahead.Proofs.Json
import Mathlib.Data.List.Nodup

namespace FieldLookahead

/-! What is requested can be read off its JSON text, with the order of its types and of its keys at
every level. -/

open Json (compact_inj)

mutual
theorem Request.toJson_inj : {one other : Request} → one.toJson = other.toJson → one = other
  | .leaf, .leaf, _ => rfl
  | .leaf, .nested _, same => nomatch same
  | .nested _, .leaf, same => nomatch same
  | .nested below, .nested below', same => by
      rw [Request.toJson, Request.toJson, Json.object.injEq] at same
      rw [Lookahead.jsonMembers_inj same]

theorem Requests.jsonMembers_inj : {one other : Requests} →
    Requests.jsonMembers one = Requests.jsonMembers other → one = other
  | [], [], _ => rfl
  | [], _ :: _, same => nomatch same
  | _ :: _, [], same => nomatch same
  | (key, request) :: rest, (key', request') :: rest', same => by
      rw [Requests.jsonMembers, Requests.jsonMembers, List.cons.injEq, Prod.mk.injEq] at same
      obtain ⟨⟨rfl, sameRequest⟩, sameRest⟩ := same
      rw [Request.toJson_inj sameRequest, Requests.jsonMembers_inj sameRest]

theorem Lookahead.jsonMembers_inj : {one other : Lookahead} →
    Lookahead.jsonMembers one = Lookahead.jsonMembers other → one = other
  | [], [], _ => rfl
  | [], _ :: _, same => nomatch same
  | _ :: _, [], same => nomatch same
  | (typeName, requests) :: rest, (typeName', requests') :: rest', same => by
      rw [Lookahead.jsonMembers, Lookahead.jsonMembers, List.cons.injEq, Prod.mk.injEq,
        Json.object.injEq] at same
      obtain ⟨⟨rfl, sameRequests⟩, sameRest⟩ := same
      rw [Requests.jsonMembers_inj sameRequests, Lookahead.jsonMembers_inj sameRest]
end

theorem Request.written_inj {one other : Request}
    (same : one.toJson.compact = other.toJson.compact) : one = other :=
  toJson_inj (compact_inj.mp same)

theorem Requests.written_inj {one other : Requests}
    (same : one.toJson.compact = other.toJson.compact) : one = other :=
  jsonMembers_inj (Json.object.inj (compact_inj.mp same))

theorem Lookahead.written_inj {one other : Lookahead}
    (same : one.toJson.compact = other.toJson.compact) : one = other :=
  jsonMembers_inj (Json.object.inj (compact_inj.mp same))

/-- The compact text tells a lookahead, requests by key or a single request from every other of its
kind; so a value without sub-fields, one below which no type stands and one with a type for which
nothing is requested have three texts. -/
theorem Lookahead.compact_toJson_inj :
    (∀ one other : Lookahead, one.toJson.compact = other.toJson.compact ↔ one = other) ∧
    (∀ one other : Requests, one.toJson.compact = other.toJson.compact ↔ one = other) ∧
    (∀ one other : Request, one.toJson.compact = other.toJson.compact ↔ one = other) ∧
    ∀ typeName, ([.leaf, .nested [], .nested [(typeName, [])]].map
      fun request : Request => request.toJson.compact).Nodup := by
  refine ⟨fun _ _ => ⟨written_inj, fun same => same ▸ rfl⟩,
    fun _ _ => ⟨Requests.written_inj, fun same => same ▸ rfl⟩,
    fun _ _ => ⟨Request.written_inj, fun same => same ▸ rfl⟩, fun typeName => ?_⟩
  exact List.Nodup.map (fun _ _ => Request.written_inj) (by simp)

end FieldLookahead
