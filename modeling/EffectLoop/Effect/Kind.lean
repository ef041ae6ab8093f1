/-!
# Effect kinds

An effect is built in (put, call, fork, join) or carries a tag of its own. A kind is written as its
tag; reading a tag back gives the built-in kind where the tag is one of theirs, so a custom kind
whose tag is `PUT` is a kind of its own that no tag denotes (`ofTag_tag`).
-/

namespace EffectLoop

/-- The kind of an effect: what decides which processor it goes to. -/
inductive EffectKind
  | put
  | call
  | fork
  | join
  | custom (tag : String)
deriving DecidableEq, Inhabited

namespace EffectKind

/-- The word a kind is written as. -/
def tag : EffectKind → String
  | .put => "PUT"
  | .call => "CALL"
  | .fork => "FORK"
  | .join => "JOIN"
  | .custom tag => tag

/-- The kind a word denotes. -/
def ofTag (tag : String) : EffectKind :=
  if tag = "PUT" then .put else
  if tag = "CALL" then .call else
  if tag = "FORK" then .fork else
  if tag = "JOIN" then .join else
  .custom tag

/-- The four kinds that every scheduler processes. -/
def builtins : List EffectKind := [.put, .call, .fork, .join]

theorem tag_ofTag (tag : String) : (ofTag tag).tag = tag := by
  unfold ofTag
  repeat' split
  all_goals simp_all [EffectKind.tag]

theorem ofTag_tag (kind : EffectKind) (h : ∀ t, kind = .custom t → t ∉ builtins.map EffectKind.tag) :
    ofTag kind.tag = kind := by
  cases kind with
  | custom t =>
    have := h t rfl
    simp only [builtins, List.map_cons, List.map_nil, EffectKind.tag, List.mem_cons,
      List.not_mem_nil, or_false, not_or] at this
    simp [ofTag, EffectKind.tag, this]
  | _ => simp [ofTag, EffectKind.tag]

end EffectKind

/-- The word of the early-termination signal; no effect may carry it. -/
def terminateTag : String := "TERMINATE"

/-- The words that a custom effect must not take. -/
def reservedTags : List String := EffectKind.builtins.map EffectKind.tag ++ [terminateTag]

end EffectLoop
