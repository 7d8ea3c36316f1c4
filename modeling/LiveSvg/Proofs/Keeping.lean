import LiveSvg.Proofs.Carrying
import LiveSvg.Proofs.Remainders
/-!
What putting a descriptor into a document leaves as it was: all but the descriptors that it takes out and the
character data right after them. So it is in the document as a tree, and in the document as it is read again
where prefixes are not mixed up.
-/

namespace LiveSvg.Document

open Markup

/-- Where prefixes are not mixed up, a cleared document is read as one without descriptors inside it. -/
theorem clears_of_unmixed {e : Element Unit} (hs : e.Sound [] Markup.maxDepth) (hp : e.Plain)
    (ho : isDescriptor e.head = false) (hu : Unmixed (space :: declarations (strip e))) : Clears e :=
  ⟨cleared e, rebind_cleared hs hp (.inr hu), (cleared_spec hs hp ho).2.1⟩

/-- Embedding a descriptor leaves what a document says beside descriptors as it was, unless character data comes
right after one of them, which goes with it. The document is read as it is then, where the prefix of descriptors
stands for their namespace or prefixes are not mixed up. -/
theorem embed_keeps_others (e : Element Unit) (d : Descriptor) :
    (remainder (embed d e) = remainder e ↔ trailing false e.inner = false) ∧
      ∀ content source, Markup.read (.text content) = some e → isDescriptor e.head = false → e.Plain →
        Descriptor.parse source = .ok d → Bound e ∨ Unmixed (space :: declarations (strip e)) →
          ∃ out, update content d = ([], .ok out) ∧ Markup.read (.text out) = some (embed d e) := by
  constructor
  · rw [remainder_embed, remainder, Prod.mk.injEq, and_iff_right rfl, drop_bare_iff]
  · intro content source hread ho hp hd hu
    refine ⟨_, update_of_read hread d, ?_⟩
    rw [read_update hread ho hp hd, rebind_cleared (read_eq_some hread) hp hu]
    rfl

/-- Descriptors in several places, needless declarations, and text that borders on nothing but them. -/
def scatteredText : String :=
  "<svg xmlns='s' xmlns:x='https://thingsboard.io/svg'>a<x:metadata>\x7b\x7d<x:metadata/>t</x:metadata><!--d-->" ++
    "<g x:tag='g' xmlns:s='s'>b<s:r/>c<x:metadata/><x:metadata/></g></svg>"

set_option maxRecDepth 100000 in
/-- It is so when descriptors stand in several places, one inside another and one after another. -/
theorem embed_keeps_scattered : ∃ e d out e', Markup.read (.text scatteredText) = some e ∧
    Descriptor.parse endingText = .ok d ∧ update scatteredText d = ([], .ok out) ∧
      Markup.read (.text out) = some e' ∧ remainder e' = remainder e := by
  obtain ⟨e, d, hread, hd, ht⟩ := exists_of_reads scatteredText endingText
    (fun e _ => !isDescriptor e.head && isPlain e && !trailing false e.inner &&
      decide (Unmixed (space :: declarations (strip e)))) (by decide +kernel)
  simp only [Bool.and_eq_true, Bool.not_eq_true', decide_eq_true_eq] at ht
  obtain ⟨⟨⟨ho, hp⟩, htrailing⟩, hu⟩ := ht
  obtain ⟨hkeeps, hreads⟩ := embed_keeps_others e d
  obtain ⟨out, hout, hback⟩ := hreads scatteredText endingText hread ho (plain_of_isPlain hp) hd (.inr hu)
  exact ⟨e, d, out, embed d e, hread, hd, hout, hback, hkeeps.mpr htrailing⟩

/-- A descriptor with text after it. -/
def trailingText : String :=
  "<svg><metadata xmlns='https://thingsboard.io/svg'>\x7b\x7d</metadata>tail<r/></svg>"

set_option maxRecDepth 100000 in
/-- Text after a descriptor is gone once another one is embedded. -/
theorem trailing_text_lost : ∃ e d out e', Markup.read (.text trailingText) = some e ∧
    isDescriptor e.head = false ∧ Descriptor.parse endingText = .ok d ∧ update trailingText d = ([], .ok out) ∧
      Markup.read (.text out) = some e' ∧ remainder e' ≠ remainder e := by
  obtain ⟨e, d, hread, hd, ht⟩ := exists_of_reads trailingText endingText
    (fun e d => !isDescriptor e.head && isPlain e && (cleared e).rebind.any fun e' =>
      decide (leaves (others (put d e').inner) ≠ leaves (others e.inner))) (by decide +kernel)
  simp only [Bool.and_eq_true, Bool.not_eq_true', Option.any_eq_true, decide_eq_true_eq] at ht
  obtain ⟨⟨ho, hp⟩, e', hbinds, hlost⟩ := ht
  have hread' : Markup.read (.text (put d (cleared e)).markup) = some (put d e') := by
    rw [read_update hread ho (plain_of_isPlain hp) hd, hbinds]
    rfl
  refine ⟨e, d, _, put d e', hread, ho, hd, update_of_read hread d, hread', fun h => hlost ?_⟩
  have hbare : (others (put d e').inner).bare = (others e.inner).bare := congrArg Prod.snd h
  rw [← leaves_bare, hbare, leaves_bare]

end LiveSvg.Document
