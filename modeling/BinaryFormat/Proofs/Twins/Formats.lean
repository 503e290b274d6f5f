import BinaryFormat.Format.Meaning
import BinaryFormat.Proofs.Twins.Envelopes
import BinaryFormat.Proofs.Twins.Scanning

/-!
# Fairness of all formats

Whatever a format is built from, and however deep formats refer to each other, it
comes to the same from paired states, if its expressions read named fields alone or
the frames do not differ.
-/

namespace BinaryFormat

variable {admitted : String → Prop} {loose : Bool}

private theorem Codec.fair_reference {e : Engine} (fair : e.Fair admitted) (defs : Definitions)
    {name : String}
    (named : loose = true → ((Record.get? defs name).getD .pass).Named admitted) :
    (Codec.reference e defs name).Fair admitted loose where
  parse w path := fair.parse w _ path named
  parseInline _ _ _ := Run.fair_fail _ _
  size contexts path := fair.size contexts _ path named

/-- Whatever is referred to under an admitted name reads named fields alone. -/
def Definitions.Named (admitted : String → Prop) (defs : Definitions) : Prop :=
  ∀ name, admitted name → ((Record.get? defs name).getD .pass).Named admitted

namespace Format

mutual

private theorem fair_codec {e : Engine} (fair : e.Fair admitted) {defs : Definitions}
    (known : Definitions.Named admitted defs) : (f : Format) → (loose = true → f.Named admitted) →
      (f.codec e defs).Fair admitted loose
  | bytes _, h => Codec.fair_bytes fair h
  | greedyBytes, _ => Codec.fair_greedyBytes
  | integer _ signed endian, h => Codec.fair_integer fair h signed endian
  | bitInteger _ signed swapped, h => Codec.fair_bitInteger fair h signed swapped
  | flag, _ => Codec.fair_flag
  | varint maxBits, _ => Codec.fair_varint maxBits
  | zigzag, _ => Codec.fair_zigzag
  | real width endian, _ => Codec.fair_real width endian
  | fixedText _ encoding pad side trim, h => Codec.fair_fixedText fair h encoding pad side trim
  | prefixedText length encoding, h => Codec.fair_prefixedText (p := ⟨length, _⟩)
      (fair_codec fair known length fun d => (h d).2) encoding
  | terminatedText terminators encoding, _ => Codec.fair_terminatedText terminators encoding
  | greedyText encoding, _ => Codec.fair_greedyText encoding
  | named _ of, h => fair_codec fair known of fun d => (h d).2
  | documented _ of, h => fair_codec fair known of fun d => (h d).2
  | struct fields overwrite, h => Codec.fair_struct
      (fun p mem => (fair_parts fair known fields (fun d => (h d).2) p mem).codec) overwrite
  | sequence items, h => Codec.fair_sequence
      fun p mem => (fair_parts fair known items (fun d => (h d).2) p mem).codec
  | embedded of, h => fair_codec fair known of fun d => (h d).2
  | focused focus items, h => Codec.fair_focused
      (fun p mem => (fair_parts fair known items (fun d => (h d).2) p mem).codec) focus
  | array _ of discard, h => Codec.fair_array fair (p := ⟨of, _⟩) (fun d => (h d).1)
      (fair_codec fair known of fun d => (h d).2) discard
  | range _ _ of discard, h => Codec.fair_range fair (p := ⟨of, _⟩) (fun d => (h d).1)
      (fair_codec fair known of fun d => (h d).2) discard
  | greedyRange of discard, h => Codec.fair_greedyRange fair (p := ⟨of, _⟩)
      (fair_codec fair known of fun d => (h d).2) discard
  | repeatUntil _ of discard, h => Codec.fair_repeatUntil fair (p := ⟨of, _⟩) (fun d => (h d).1)
      (fair_codec fair known of fun d => (h d).2) discard
  | prefixedArray count of, h => Codec.fair_prefixedArray (q := ⟨count, _⟩) (p := ⟨of, _⟩)
      (fair_codec fair known count fun d => (h d).2.1)
      (fair_codec fair known of fun d => (h d).2.2)
  | select alternatives tagged, h => Codec.fair_select
      (fun p mem => (fair_parts fair known alternatives (fun d => (h d).2) p mem).codec) tagged
  | union key alternatives, h => Codec.fair_union
      (fun p mem => (fair_parts fair known alternatives (fun d => (h d).2) p mem).codec) key
  | branch _ yes no, h => Codec.fair_branch fair (fun d => (h d).1)
      (fair_codec fair known yes fun d => (h d).2.1) (fair_codec fair known no fun d => (h d).2.2)
  | switch _ cases otherwise, h => Codec.fair_switch fair (fun d => (h d).1) fun p mem => mem.elim
      (fair_cases fair known cases (fun d => (h d).2.1) p)
      (fair_partIf fair known otherwise (fun d => (h d).2.2) p)
  | pass, _ => Codec.fair_pass
  | terminated, _ => Codec.fair_terminated
  | tell, _ => Codec.fair_tell
  | seek _ whence, h => Codec.fair_seek fair h whence
  | pointer _ of, h => Codec.fair_pointer fair (p := ⟨of, _⟩) (fun d => (h d).1)
      (fair_codec fair known of fun d => (h d).2)
  | peek of, h => Codec.fair_peek (p := ⟨of, _⟩) (fair_codec fair known of fun d => (h d).2)
  | padding _ fill, h => Codec.fair_padding fair h fill
  | padded _ of fill, h => Codec.fair_padded fair (fun d => (h d).1)
      (fair_codec fair known of fun d => (h d).2) fill
  | aligned _ of fill, h => Codec.fair_aligned fair (fun d => (h d).1)
      (fair_codec fair known of fun d => (h d).2) fill
  | prefixed length of inclusive lenient, h => Codec.fair_prefixed (p := ⟨length, _⟩)
      (fair_codec fair known length fun d => (h d).2.1)
      (fair_codec fair known of fun d => (h d).2.2) inclusive lenient
  | fixedSized _ of, h => Codec.fair_fixedSized fair (fun d => (h d).1)
      (fair_codec fair known of fun d => (h d).2)
  | delimited of delimiter, h => Codec.fair_delimited
      (fair_codec fair known of fun d => (h d).2) delimiter
  | stripped of pad, h => Codec.fair_stripped (fair_codec fair known of fun d => (h d).2) pad
  | rawCopy of, h => Codec.fair_rawCopy (p := ⟨of, _⟩) (fair_codec fair known of fun d => (h d).2)
  | transformed of _ _, h => Codec.fair_transformed fair
      (fair_codec fair known of fun d => (h d).2) fun d => (h d).1
  | recoded of recoding checked, h => Codec.fair_recoded
      (fair_codec fair known of fun d => (h d).2) recoding checked
  | constant of value, h => Codec.fair_constant fair
      (fair_codec fair known of fun d => (h d).2) value
  | computed _, h => Codec.fair_computed fair h
  | rebuild of expr, h => Codec.fair_rebuild (p := ⟨of, _⟩)
      (fair_codec fair known of fun d => (h d).2) expr
  | fallback of value, h => Codec.fair_fallback (fair_codec fair known of fun d => (h d).2) value
  | check _, h => Codec.fair_check fair h
  | fail message, _ => Codec.fair_explicit message
  | checksum of hash _, h => Codec.fair_checksum fair (p := ⟨of, _⟩)
      (fair_codec fair known of fun d => (h d).2) hash fun d => (h d).1
  | converted of conversion, h => Codec.fair_converted
      (fair_codec fair known of fun d => (h d).2) conversion
  | convertedIn of _, h => Codec.fair_convertedIn
      (fair_codec fair known of fun d => (h d).2) fun d => (h d).1
  | convertedBy of _ encode, h => Codec.fair_convertedBy fair
      (fair_codec fair known of fun d => (h d).2) (fun d => (h d).1) encode
  | validated of _, h => Codec.fair_validated fair
      (fair_codec fair known of fun d => (h d).2) fun d => (h d).1
  | labelled of labels unlabelled, h => Codec.fair_labelled
      (fair_codec fair known of fun d => (h d).2) labels unlabelled
  | mapped of table, h => Codec.fair_mapped fair (fair_codec fair known of fun d => (h d).2) table
  | flagSet of flags strict, h => Codec.fair_flagSet
      (fair_codec fair known of fun d => (h d).2) flags strict
  | lazyStruct fields, h => Codec.fair_lazyStruct fair
      (fair_parts fair known fields fun d => (h d).2)
  | lazySequence items, h => Codec.fair_lazySequence fair
      (fair_parts fair known items fun d => (h d).2)
  | lazyArray _ of, h => Codec.fair_lazyArray fair (p := ⟨of, _⟩) (fun d => (h d).1)
      ⟨fair_codec fair known of fun d => (h d).2, fun d => (h d).2⟩
  | lazyRange _ _ of, h => Codec.fair_lazyRange fair (p := ⟨of, _⟩) (fun d => (h d).1)
      ⟨fair_codec fair known of fun d => (h d).2, fun d => (h d).2⟩
  | reference name, h => Codec.fair_reference fair defs fun d => known name (h d)

theorem fair_parts {e : Engine} (fair : e.Fair admitted) {defs : Definitions}
    (known : Definitions.Named admitted defs) :
    (fs : List Format) → (loose = true → AllOf (IsNamed admitted) fs) →
      ∀ p ∈ parts e defs fs, p.Fair admitted loose
  | [], _, _, mem => absurd mem List.not_mem_nil
  | f :: rest, h, p, mem => by
      rcases List.mem_cons.mp mem with rfl | mem
      · exact ⟨fair_codec fair known f fun d => (h d).1, fun d => (h d).1⟩
      · exact fair_parts fair known rest (fun d => (h d).2) p mem

theorem fair_cases {e : Engine} (fair : e.Fair admitted) {defs : Definitions}
    (known : Definitions.Named admitted defs) :
    (cases : List (Value × Format)) → (loose = true → AllCases (IsNamed admitted) cases) →
      ∀ p ∈ (casesOf e defs cases).map Prod.snd, p.codec.Fair admitted loose
  | [], _, _, mem => absurd mem List.not_mem_nil
  | (_, f) :: rest, h, p, mem => by
      rcases List.mem_cons.mp mem with rfl | mem
      · exact fair_codec fair known f fun d => (h d).1
      · exact fair_cases fair known rest (fun d => (h d).2) p mem

theorem fair_partIf {e : Engine} (fair : e.Fair admitted) {defs : Definitions}
    (known : Definitions.Named admitted defs) :
    (otherwise : Option Format) → (loose = true → AllIf (IsNamed admitted) otherwise) →
      ∀ p, partIf e defs otherwise = some p → p.codec.Fair admitted loose
  | none, _, _, same => by cases same
  | some f, h, p, same => by
      cases same
      exact fair_codec fair known f h

end

end Format

/-! ## All engines -/

namespace Engine

private theorem fair_exhausted : exhausted.Fair admitted where
  parse _ _ _ _ := Run.fair_fail _ _
  size _ _ _ _ := Lookup.alike_throw _
  forceMember _ := Lookup.alike_throw _

theorem fair_level {defs : Definitions} (known : Definitions.Named admitted defs) (n : Nat) :
    (level defs n).Fair admitted := by
  induction n with
  | zero => exact fair_exhausted
  | succ n ih =>
      exact ⟨fun w f path named => (f.fair_codec ih known named).parse w path,
        fun contexts f path named => (f.fair_codec ih known named).size contexts path,
        ih.resolver.force⟩

end Engine

end BinaryFormat
