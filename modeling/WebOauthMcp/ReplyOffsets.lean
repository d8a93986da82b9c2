import WebOauthMcp.FileReplies
import WebOauthMcp.OffsetPaging

/-!
# Offsets in replies

What a caller reads of a reply in order to go on, and when a payload fits its budget under
the contract.
-/

namespace WebOauthMcp.ReplyOffsets
open CodePoints JsonText ExceptSteps ResponseBudget BudgetMetadata FileReplies

def countOf : Json → Option ℕ
  | .int (.ofNat n) => some n
  | _ => none

def itemsOf : Json → List Json
  | .arr items => items
  | _ => []

def nextOffsetOf (d : Dict) : Option ℕ := (dictGet (txt "next_offset") d).bind countOf

/-- The items that a reply shows under a key. -/
def shownItems (key : Text) (d : Dict) : List Json := ((dictGet key d).map itemsOf).getD []

@[simp] theorem countOf_optionalCount (o : Option ℕ) : countOf (optionalCount o) = o := by cases o <;> rfl

theorem nextOffset_notContract : txt "next_offset" ∉ contractKeys := by decide

/-- The payload fits under the contract. -/
def fitsReply (enc : TokenEncoding) (budget : Budget) (payload : Dict) (truncated : Bool) (stopReason : Text) : Bool :=
  match withBudgetMetadata enc payload budget truncated stopReason with
  | .ok r => r.2.fits
  | .error _ => false

variable {enc : TokenEncoding} {budget : Budget} {payload : Dict} {truncated : Bool} {stopReason : Text}

theorem fitsReply_of_ok {r : Dict × BudgetMeasurement} (h : withBudgetMetadata enc payload budget truncated stopReason = .ok r) :
    fitsReply enc budget payload truncated stopReason = r.2.fits := by rw [fitsReply, h]

theorem nextOffsetOf_reply {r : Dict × BudgetMeasurement} (h : withBudgetMetadata enc payload budget truncated stopReason = .ok r) :
    nextOffsetOf r.1 = nextOffsetOf payload := by
  rw [nextOffsetOf, nextOffsetOf, withBudgetMetadata_get nextOffset_notContract h]

theorem shownItems_reply {key : Text} (hkey : key ∉ contractKeys) {r : Dict × BudgetMeasurement}
    (h : withBudgetMetadata enc payload budget truncated stopReason = .ok r) : shownItems key r.1 = shownItems key payload := by
  rw [shownItems, shownItems, withBudgetMetadata_get hkey h]

end WebOauthMcp.ReplyOffsets
