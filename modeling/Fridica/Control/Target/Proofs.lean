import Fridica.Control.Target.Spec
import Fridica.Lib.Checked
import Mathlib.Data.List.TakeWhile

/-!
# Client and server address the same object

A target that is accepted says one segment for each part of its path, and an identifier that the
client admits is read as itself.
-/

namespace Fridica.Control.Target

/-! ## Decoding -/

theorem decode_cons {c : UInt8} (h : c ≠ byte '%') (source : Text) :
    decode (c :: source) = (decode source).map (c :: ·) := by
  conv_lhs => unfold decode
  rw [if_neg h]
  cases decode source <;> rfl

theorem decode_escape (a b : UInt8) (source : Text) :
    decode (byte '%' :: a :: b :: source) =
      (to_digit a).bind fun high => (to_digit b).bind fun low =>
        (decode source).map ((high * 16 + low).toUInt8 :: ·) := by
  conv_lhs => unfold decode
  rw [if_pos rfl]
  dsimp only
  cases to_digit a <;> cases to_digit b <;> cases decode source <;> rfl

theorem decode_short {source : Text} (h : ∀ a b rest, source ≠ a :: b :: rest) :
    decode (byte '%' :: source) = none := by
  unfold decode
  rw [if_pos rfl]
  split
  next a b rest => exact absurd rfl (h a b rest)
  · rfl

theorem decode_sound {part bytes : Text} (h : decode part = some bytes) : Decodes part bytes := by
  induction part using decode.induct generalizing bytes with
  | case1 =>
    rw [← Option.some.inj h]
    exact .nil
  | case2 a b source ih =>
    rw [decode_escape] at h
    obtain ⟨high, hhigh, h⟩ := Option.bind_eq_some_iff.mp h
    obtain ⟨low, hlow, h⟩ := Option.bind_eq_some_iff.mp h
    obtain ⟨rest, hrest, rfl⟩ := Option.map_eq_some_iff.mp h
    exact .escape hhigh hlow (ih hrest)
  | case3 source hshort =>
    rw [decode_short hshort] at h
    cases h
  | case4 c source hc ih =>
    rw [decode_cons hc] at h
    obtain ⟨rest, hrest, rfl⟩ := Option.map_eq_some_iff.mp h
    exact .plain hc (ih hrest)

theorem decode_plain {part : Text} (h : byte '%' ∉ part) : decode part = some part := by
  induction part with
  | nil => rfl
  | cons c part ih =>
    rw [List.mem_cons, not_or] at h
    rw [decode_cons (Ne.symm h.1), ih h.2]
    rfl

/-! ## Segments -/

theorem not_refused_iff (s : Text) : refused s = false ↔ Segment s := by
  have hany : (s.any fun c => !is_ascii_graphic c ||
      [byte '/', byte '\\', byte '?', byte '#'].contains c) = false ↔
      (∀ c ∈ s, is_ascii_graphic c = true) ∧
        byte '/' ∉ s ∧ byte '\\' ∉ s ∧ byte '?' ∉ s ∧ byte '#' ∉ s := by
    simp only [List.any_eq_false, Bool.or_eq_true, Bool.not_eq_true', List.contains_eq_mem,
      decide_eq_true_eq, not_or, Bool.not_eq_false]
    constructor
    · intro h
      refine ⟨fun c hc => (h c hc).1, ?_, ?_, ?_, ?_⟩ <;>
        exact fun hc => (h _ hc).2 (by simp)
    · rintro ⟨hgraphic, hslash, hback, hquery, hhash⟩ c hc
      refine ⟨hgraphic c hc, fun hmem => ?_⟩
      simp only [List.mem_cons, List.not_mem_nil, or_false] at hmem
      rcases hmem with rfl | rfl | rfl | rfl
      · exact hslash hc
      · exact hback hc
      · exact hquery hc
      · exact hhash hc
  unfold refused
  rw [Bool.or_eq_false_iff, hany]
  simp only [Bool.or_eq_false_iff, List.isEmpty_eq_false_iff, beq_eq_false_iff_ne, ne_eq,
    decide_eq_false_iff_not, gt_iff_lt]
  constructor
  · rintro ⟨⟨⟨⟨hempty, hdot⟩, hdots⟩, hlen⟩, hgraphic, hplain⟩
    exact ⟨hempty, Nat.le_of_not_lt hlen, hgraphic, hplain, hdot, hdots⟩
  · rintro ⟨hempty, hlen, hgraphic, hplain, hdot, hdots⟩
    exact ⟨⟨⟨⟨hempty, hdot⟩, hdots⟩, Nat.not_lt.mpr hlen⟩, hgraphic, hplain⟩

theorem part_of_ok {part s : Text} (h : part_of part = some s) : Decodes part s ∧ Segment s := by
  obtain ⟨bytes, hbytes, h⟩ := Option.bind_eq_some_iff.mp h
  split at h
  · cases h
  next hrefused =>
    rw [← Option.some.inj h]
    exact ⟨decode_sound hbytes, (not_refused_iff bytes).mp (Bool.not_eq_true _ ▸ hrefused)⟩

theorem part_of_plain {s : Text} (h : Segment s) (hplain : byte '%' ∉ s) : part_of s = some s := by
  unfold part_of
  rw [decode_plain hplain]
  exact if_neg (Bool.not_eq_true _ ▸ (not_refused_iff s).mpr h)

theorem target_parts {query_pairs : Text → Option (List (Text × Text))} {value : Text}
    {parts : List Text} {fields : List (Text × Text)}
    (h : target query_pairs value = some (parts, fields)) : path_parts value = some parts := by
  unfold target at h
  split at h
  · cases h
  · obtain ⟨parts', hparts, h⟩ := Option.bind_eq_some_iff.mp h
    obtain ⟨pairs, -, h⟩ := Option.bind_eq_some_iff.mp h
    obtain ⟨fields', -, h⟩ := Option.bind_eq_some_iff.mp h
    split at h
    · obtain ⟨rfl, -⟩ := Prod.mk.inj (Option.some.inj h)
      exact hparts
    · cases h

/-! ## A path of parts -/

theorem raw_parts_render {ps : List Text} (hne : ps ≠ []) (hps : ∀ p ∈ ps, IsPart p) {query : Text}
    (hquery : query = [] ∨ ∃ q, query = byte '?' :: q) : raw_parts (render ps ++ query) = ps := by
  have hno : ∀ c ∈ render ps, (c ≠ byte '?') := by
    intro c hc
    obtain ⟨p, hp, hc⟩ := List.mem_flatMap.mp hc
    rcases List.mem_cons.mp hc with rfl | hc
    · decide
    · rintro rfl
      exact (hps p hp).2.1 hc
  have hpath : (split_query (render ps ++ query)).1 = render ps := by
    unfold split_query
    dsimp only
    rw [List.takeWhile_append_of_pos (by simpa using hno)]
    rcases hquery with rfl | ⟨q, rfl⟩
    · simp
    · rw [List.takeWhile_cons_of_neg (by simp), List.append_nil]
  unfold raw_parts
  rw [hpath]
  clear hpath hno hquery
  induction ps with
  | nil => exact absurd rfl hne
  | cons p ps ih =>
    have hp : byte '/' ∉ p := (hps p List.mem_cons_self).1
    cases ps with
    | nil =>
      have hone : (render [p]).tail = p := by simp [render]
      rw [hone, List.splitOn_eq_singleton hp]
    | cons p' ps =>
      have hmore : (render (p :: p' :: ps)).tail =
          p ++ byte '/' :: (render (p' :: ps)).tail := by simp [render]
      rw [hmore, List.splitOn_append_cons_self_of_not_mem hp,
        ih (List.cons_ne_nil p' ps) fun q hq => hps q (List.mem_cons_of_mem _ hq)]

/-! ## Identifiers -/

/-- The bytes that the client admits. -/
def admitted (c : UInt8) : Bool :=
  is_ascii_alphanumeric c || [byte '-', byte '_', byte '.', byte ':'].contains c

theorem admitted_ne {c d : UInt8} (h : admitted c = true) (hd : admitted d = false) : c ≠ d := by
  rintro rfl
  rw [h] at hd
  cases hd

theorem admitted_graphic {c : UInt8} (h : admitted c = true) : is_ascii_graphic c = true := by
  unfold admitted is_ascii_alphanumeric at h
  simp only [Bool.or_eq_true, Bool.and_eq_true, decide_eq_true_eq, List.contains_eq_mem,
    List.mem_cons, List.not_mem_nil, or_false] at h
  rcases h with h | rfl | rfl | rfl | rfl
  · unfold is_ascii_graphic
    simp only [Bool.and_eq_true, decide_eq_true_eq]
    omega
  all_goals decide

theorem segment_ok {value id : Text} (h : segment value = some id) :
    id ≠ [] ∧ id ≠ [byte '.'] ∧ id ≠ [byte '.', byte '.'] ∧ ∀ c ∈ id, admitted c = true := by
  unfold segment at h
  split at h
  · cases h
  next hadmitted =>
    rw [← Option.some.inj h]
    simp only [Bool.or_eq_true, Bool.not_eq_true', not_or, List.isEmpty_iff, beq_iff_eq,
      Bool.not_eq_false, List.all_eq_true] at hadmitted
    obtain ⟨⟨⟨hempty, hdot⟩, hdots⟩, hall⟩ := hadmitted
    refine ⟨hempty, hdot, hdots, fun c hc => ?_⟩
    unfold admitted
    rw [Bool.or_eq_true]
    exact hall c hc

theorem not_mem_of_admitted {id : Text} (h : ∀ c ∈ id, admitted c = true) {d : UInt8}
    (hd : admitted d = false) : d ∉ id := fun hmem => admitted_ne (h d hmem) hd rfl

theorem identifier_part {value id : Text} (h : segment value = some id) (hlen : id.length ≤ 512) :
    IsPart id ∧ part_of id = some id := by
  obtain ⟨hempty, hdot, hdots, hall⟩ := segment_ok h
  have hslash := not_mem_of_admitted hall (d := byte '/') (by decide)
  have hback := not_mem_of_admitted hall (d := byte '\\') (by decide)
  have hquery := not_mem_of_admitted hall (d := byte '?') (by decide)
  have hhash := not_mem_of_admitted hall (d := byte '#') (by decide)
  have hpercent := not_mem_of_admitted hall (d := byte '%') (by decide)
  have hsegment : Segment id := ⟨hempty, hlen, fun c hc => admitted_graphic (hall c hc),
    ⟨hslash, hback, hquery, hhash⟩, hdot, hdots⟩
  exact ⟨⟨hslash, hquery, hhash⟩, part_of_plain hsegment hpercent⟩

theorem ne_nil_of_part_of {part s : Text} (h : part_of part = some s) : part ≠ [] := by
  rintro rfl
  obtain ⟨hdecodes, hsegment⟩ := part_of_ok h
  cases hdecodes
  exact hsegment.nonempty rfl

theorem target_render {query_pairs : Text → Option (List (Text × Text))} {p s : Text}
    {ps parts : List Text} (hps : ∀ q ∈ p :: ps, IsPart q) (hp : part_of p = some s)
    (hparts : path_parts (render (p :: ps)) = some parts) (hquery : query_pairs [] = some [])
    (hlen : (render (p :: ps)).length ≤ 4096) :
    target query_pairs (render (p :: ps)) = some (parts, []) := by
  obtain ⟨c, source, rfl⟩ := List.exists_cons_of_ne_nil (ne_nil_of_part_of hp)
  have hstart : render ((c :: source) :: ps) = byte '/' :: c :: (source ++ render ps) := rfl
  have hslash : c ≠ byte '/' := by
    rintro rfl
    exact (hps _ List.mem_cons_self).1 List.mem_cons_self
  have hno : ∀ d, (∀ q ∈ (c :: source) :: ps, d ∉ q) → d ≠ byte '/' →
      d ∉ render ((c :: source) :: ps) := by
    intro d hd hne hmem
    obtain ⟨q, hq, hmem⟩ := List.mem_flatMap.mp hmem
    rcases List.mem_cons.mp hmem with rfl | hmem
    · exact hne rfl
    · exact hd q hq hmem
  have hhash := hno (byte '#') (fun q hq => (hps q hq).2.2) (by decide)
  have hmark := hno (byte '?') (fun q hq => (hps q hq).2.1) (by decide)
  have hnone : (split_query (render ((c :: source) :: ps))).2 = [] := by
    unfold split_query
    dsimp only
    have hall : ∀ d ∈ render ((c :: source) :: ps), decide (d ≠ byte '?') = true := by
      intro d hd
      rw [decide_eq_true_eq]
      rintro rfl
      exact hmark hd
    rw [List.dropWhile_eq_nil_iff.mpr hall, List.tail_nil]
  unfold target
  rw [hparts, hnone]
  have hadmitted : (decide ((render ((c :: source) :: ps)).length > 4096) ||
      (render ((c :: source) :: ps)).head? != some (byte '/') ||
      [byte '/', byte '/'].isPrefixOf (render ((c :: source) :: ps)) ||
      (render ((c :: source) :: ps)).contains (byte '#')) = false := by
    simp only [Bool.or_eq_false_iff, decide_eq_false_iff_not, List.contains_eq_mem]
    refine ⟨⟨⟨Nat.not_lt.mpr hlen, ?_⟩, ?_⟩, hhash⟩
    · rw [hstart]
      rfl
    · rw [hstart]
      simp [List.isPrefixOf, Ne.symm hslash]
  rw [hadmitted]
  simp only [Bool.false_eq_true, if_false, Option.bind_eq_bind, Option.bind_some, hquery]
  rfl

/-- **Every accepted target says one segment for each part of its path**, and an identifier that
the client admits is read as itself wherever it stands. -/
theorem target_addresses (query_pairs : Text → Option (List (Text × Text))) :
    (∀ value parts fields, target query_pairs value = some (parts, fields) →
      (∀ s ∈ parts, Segment s) ∧ List.Forall₂ Decodes (raw_parts value) parts ∧
        parts.length = (raw_parts value).length) ∧
    ∀ value id, (segment value = some id ∨ thread value = some id) → id.length ≤ 512 →
      ∀ before after before' after' query, (∀ p ∈ before ++ after, IsPart p) →
        before.mapM part_of = some before' → after.mapM part_of = some after' →
        (query = [] ∨ ∃ q, query = byte '?' :: q) →
        path_parts (render (before ++ id :: after) ++ query) = some (before' ++ id :: after') ∧
        (query_pairs [] = some [] → (render (before ++ id :: after)).length ≤ 4096 →
          target query_pairs (render (before ++ id :: after)) =
            some (before' ++ id :: after', [])) := by
  constructor
  · intro value parts fields h
    have hall := Checked.mapM_forall₂ (target_parts h)
    refine ⟨?_, hall.imp fun _ _ hpart => (part_of_ok hpart).1, hall.length_eq.symm⟩
    intro s hs
    obtain ⟨part, -, hpart⟩ := Checked.exists_of_mem_right hall hs
    exact (part_of_ok hpart).2
  · intro value id hid hlen before after before' after' query hps hbefore hafter hquery
    obtain ⟨hpart, hread⟩ : IsPart id ∧ part_of id = some id := by
      rcases hid with hid | hid
      · exact identifier_part hid hlen
      · exact identifier_part hid hlen
    have hparts : ∀ p ∈ before ++ id :: after, IsPart p := by
      intro p hp
      rcases List.mem_append.mp hp with hp | hp
      · exact hps p (List.mem_append_left _ hp)
      · rcases List.mem_cons.mp hp with rfl | hp
        · exact hpart
        · exact hps p (List.mem_append_right _ hp)
    have hmap : (before ++ id :: after).mapM part_of = some (before' ++ id :: after') := by
      apply Checked.mapM_append hbefore
      rw [List.mapM_cons, hread, hafter]
      rfl
    have hpath : ∀ query, (query = [] ∨ ∃ q, query = byte '?' :: q) →
        path_parts (render (before ++ id :: after) ++ query) = some (before' ++ id :: after') := by
      intro query hquery
      unfold path_parts
      rw [raw_parts_render (by simp) hparts hquery]
      exact hmap
    refine ⟨hpath query hquery, fun hnone hshort => ?_⟩
    have hbare := hpath [] (.inl rfl)
    rw [List.append_nil] at hbare
    obtain ⟨p, ps, hcons⟩ := List.exists_cons_of_ne_nil (l := before ++ id :: after) (by simp)
    rw [hcons] at hparts hbare hshort hmap ⊢
    rw [List.mapM_cons] at hmap
    obtain ⟨s, hs, -⟩ := Option.bind_eq_some_iff.mp hmap
    exact target_render hparts hs hbare hnone hshort

theorem target_addresses_obligation :
    target (fun _ => some []) (render [bytes "obligations", bytes "ab:1", bytes "close"]) =
      some ([bytes "obligations", bytes "ab:1", bytes "close"], []) :=
  ((target_addresses fun _ => some []).2 (bytes "ab:1") (bytes "ab:1") (.inl (by decide +kernel))
    (by decide +kernel) [bytes "obligations"] [bytes "close"] [bytes "obligations"]
    [bytes "close"] [] (by unfold IsPart; decide +kernel) (by decide +kernel) (by decide +kernel)
    (.inl rfl)).2 rfl (by decide +kernel)

end Fridica.Control.Target
