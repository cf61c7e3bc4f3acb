import JsxView.Proofs.GivenUp
import JsxView.Proofs.Retries
import JsxView.Token.Scan
/-!
# Leftmost — the scan without its memory

The plain procedure that a scan stands for remembers nothing.  From a place it takes the nearest one where some rule
has a match that ends inside the region, there the match of the first such rule, and goes on behind it (`PlainScan`).
A rule of which a search is given up takes no further part: `LeftmostScan` is the plain procedure with the rules that
are left.

`scan` keeps the next match of every rule instead and looks again only when it has passed the match it knows.  What it
knows of a rule is what a search would find now, or passed, or the rule is out (`Lookahead.Tracks`), so it takes the
same matches.
-/
namespace JsxView

/-- The match, of the first rule that has one, at a place that ends inside the first `limit` bytes. -/
def firstWithin (rules : List Rule) (limit : Nat) (p : Place) : Option Found :=
  rules.findSome? fun rule => rule.fitsAt limit p

/-- **The plain procedure**: the nearest match of the first rule that has one, and from its end on the next. -/
inductive PlainScan (limit : Nat) (rules : List Rule) : Place → List Found → Prop where
  | done {p : Place} : Nearest (firstWithin rules limit) p none → PlainScan limit rules p []
  | take {p : Place} {f : Found} {rest : List Found} : Nearest (firstWithin rules limit) p (some f) →
      PlainScan limit rules f.next rest → PlainScan limit rules p (f :: rest)

/-- The rules of which no search from a place is given up. -/
def lasting [Engine] (limit : Nat) (p : Place) (rules : List Rule) : List Rule :=
  rules.filter fun rule => !rule.givenUp limit p

/-- **The plain procedure with the rules that last**: a rule takes part until a search of it is given up. -/
inductive LeftmostScan [Engine] (limit : Nat) : List Rule → Place → List Found → Prop where
  | done {rules : List Rule} {p : Place} : Nearest (firstWithin (lasting limit p rules) limit) p none →
      LeftmostScan limit rules p []
  | take {rules : List Rule} {p : Place} {f : Found} {rest : List Found} :
      Nearest (firstWithin (lasting limit p rules) limit) p (some f) →
      LeftmostScan limit (lasting limit p rules) f.next rest → LeftmostScan limit rules p (f :: rest)

/-- **The tokens of a line by a procedure**: all rules on the whole line, and inside every tag the nested rules on its
range. -/
def TokensBy (procedure : Nat → List Rule → Place → List Found → Prop) (line : List Char) (tokens : List Token) : Prop :=
  ∃ (found : List Found) (inside : Found → List Found),
    procedure (byteSize line) Rule.scanner (Place.start line) found ∧
    (∀ f ∈ found, f.category = .tag → procedure f.stop Rule.nested f.site (inside f)) ∧
    tokens = found.map fun f =>
      ⟨f.category, f.start, f.stop, if f.category = .tag then (inside f).map Token.leaf else []⟩

theorem firstWithin_cons (rule : Rule) (rules : List Rule) (limit : Nat) (p : Place) :
    firstWithin (rule :: rules) limit p =
      (rule.fitsAt limit p).or (firstWithin rules limit p) := by
  unfold firstWithin
  rw [List.findSome?_cons]
  cases rule.fitsAt limit p <;> rfl

theorem firstWithin_eq_some {rules : List Rule} {limit : Nat} {p : Place} {f : Found}
    (h : firstWithin rules limit p = some f) :
    ∃ rule ∈ rules, rule.foundAt p = some f ∧ f.stop ≤ limit := by
  obtain ⟨rule, hrule, hf⟩ := List.exists_of_findSome?_eq_some h
  exact ⟨rule, hrule, Rule.fitsAt_eq_some.1 hf⟩

theorem onSite_firstWithin (rules : List Rule) (limit : Nat) : OnSite (firstWithin rules limit) := by
  intro p f h
  obtain ⟨rule, -, hf, -⟩ := firstWithin_eq_some h
  exact (Rule.foundAt_eq_some hf).1

/-! ## One answer for several rules -/

/-- Of two matches the one that starts first, the left one of two that start together. -/
def earlier : Option Found → Option Found → Option Found
  | some f, some g => if g.start < f.start then some g else some f
  | some f, none => some f
  | none, g => g

/-- **The earlier of two nearest answers** is the nearest answer of the two tests asked in turn. -/
theorem Nearest.earlier {t t' : Place → Option Found} {p : Place} {r r' : Option Found} (hon : OnSite t)
    (hon' : OnSite t') (h : Nearest t p r) (h' : Nearest t' p r') :
    Nearest (fun q => (t q).or (t' q)) p (earlier r r') := by
  cases r with
  | none =>
    have hor : ∀ k < p.after.length, (t (p.skip k)).or (t' (p.skip k)) = t' (p.skip k) := by
      intro k hk
      rw [h k hk, Option.none_or]
    cases r' with
    | none =>
      intro k hk
      exact (hor k hk).trans (h' k hk)
    | some g =>
      obtain ⟨k, hk, hg, hbefore⟩ := h'
      refine ⟨k, hk, (hor k hk).trans hg, fun j hj => ?_⟩
      exact (hor j (Nat.lt_trans hj hk)).trans (hbefore j hj)
  | some f =>
    obtain ⟨k, hk, hf, hbefore⟩ := h
    have hsite := hon _ _ hf
    cases r' with
    | none =>
      refine ⟨k, hk, ?_, fun j hj => ?_⟩
      · simp only [hf, Option.some_or]
      · simp only [hbefore j hj, Option.none_or]
        exact h' j (Nat.lt_trans hj hk)
    | some g =>
      obtain ⟨k', hk', hg, hbefore'⟩ := h'
      have hsite' := hon' _ _ hg
      have hlt : g.start < f.start ↔ k' < k := by
        unfold Found.start
        rw [hsite, hsite']
        exact Place.offset_skip_lt_iff p hk' hk
      -- only a strictly earlier match is preferred to that of the first test
      by_cases hkk : k' < k
      · rw [JsxView.earlier, if_pos (hlt.2 hkk)]
        refine ⟨k', hk', ?_, fun j hj => ?_⟩
        · simp only [hbefore k' hkk, Option.none_or, hg]
        · simp only [hbefore j (Nat.lt_trans hj hkk), Option.none_or]
          exact hbefore' j hj
      · rw [JsxView.earlier, if_neg (fun hs => hkk (hlt.1 hs))]
        refine ⟨k, hk, ?_, fun j hj => ?_⟩
        · simp only [hf, Option.some_or]
        · simp only [hbefore j hj, Option.none_or]
          exact hbefore' j (Nat.lt_of_lt_of_le hj (Nat.le_of_not_lt hkk))

/-! ## What a procedure takes -/

/-- The place behind a match that was searched from `p` is a place behind `p`. -/
theorem Nearest.next_eq_skip {test : Place → Option Found} {p : Place} {f : Found} (hon : OnSite test)
    (h : Nearest test p (some f)) :
    ∃ k < p.after.length, f.site = p.skip k ∧ f.next = p.skip (k + f.length) := by
  obtain ⟨k, hk, hf, -⟩ := h
  have hsite := hon _ _ hf
  refine ⟨k, hk, hsite, ?_⟩
  rw [Found.next, hsite, Place.skip_add]

theorem length_pos_of_firstWithin {rules : List Rule} {limit : Nat} {p : Place} {f : Found}
    (h : firstWithin rules limit p = some f) : 0 < f.length := by
  obtain ⟨rule, -, hf, -⟩ := firstWithin_eq_some h
  exact (Rule.foundAt_eq_some hf).2.1

theorem length_next_lt {rules : List Rule} {limit : Nat} {p : Place} {f : Found}
    (h : Nearest (firstWithin rules limit) p (some f)) : f.next.after.length < p.after.length := by
  obtain ⟨k, hk, -, hnext⟩ := h.next_eq_skip (onSite_firstWithin _ _)
  obtain ⟨_, _, hf, _⟩ := h
  have := length_pos_of_firstWithin hf
  rw [hnext, Place.length_after_skip]
  omega

theorem firstWithin_ne_none {rules : List Rule} {limit : Nat} {p : Place} {rule : Rule} (hrule : rule ∈ rules)
    {f : Found} (hf : rule.fitsAt limit p = some f) : firstWithin rules limit p ≠ none := by
  intro hnone
  rw [List.findSome?_eq_none_iff.1 hnone rule hrule] at hf
  cases hf

theorem PlainScan.unique {rules : List Rule} {limit : Nat} {p : Place} {found found' : List Found}
    (h : PlainScan limit rules p found) (h' : PlainScan limit rules p found') : found = found' := by
  induction h generalizing found' with
  | done hnear =>
    cases h' with
    | done => rfl
    | take hnear' _ => cases hnear.unique hnear'
  | take hnear _ ih =>
    cases h' with
    | done hnear' => cases hnear.unique hnear'
    | take hnear' hrest' =>
      cases hnear.unique hnear'
      rw [ih hrest']

theorem Found.within_of_lt {f : Found} {n : Nat} (hn : n < f.length) (hlen : n < f.site.after.length) :
    f.start ≤ (f.site.skip n).offset ∧ (f.site.skip n).offset < f.stop := by
  have := byteSize_take_lt f.site.after hn hlen
  rw [Place.offset_skip]
  unfold Found.stop Found.start Found.text
  omega

/-! ## What the scanner knows -/

section

variable [Engine]

theorem lasting_cons (limit : Nat) (p : Place) (rule : Rule) (rules : List Rule) : lasting limit p (rule :: rules) =
    if rule.givenUp limit p then lasting limit p rules else rule :: lasting limit p rules := by
  unfold lasting
  rw [List.filter_cons]
  cases rule.givenUp limit p <;> rfl

namespace Lookahead

/-- **What is known of a rule is what a search would find now**, or the scan has passed it. -/
def Current (limit : Nat) (p : Place) (l : Lookahead) : Prop :=
  match l.upcoming with
  | .unknown => True
  | .found f => f.start < p.offset ∨ l.rule.findWithin limit p = some f
  | .exhausted => l.rule.findWithin limit p = none

/-- **What is known of the rules that take part** is current, and of those that are out it is known that they are. -/
inductive Tracks (limit : Nat) (p : Place) : List Rule → List Lookahead → Prop where
  | nil : Tracks limit p [] []
  | part {l : Lookahead} {rules : List Rule} {known : List Lookahead} : l.rule.WellMade → l.Current limit p →
      Tracks limit p rules known → Tracks limit p (l.rule :: rules) (l :: known)
  | out {rule : Rule} {rules : List Rule} {known : List Lookahead} :
      Tracks limit p rules known → Tracks limit p rules (⟨rule, .exhausted⟩ :: known)

theorem tracks_fresh (limit : Nat) (p : Place) : ∀ {rules : List Rule}, (∀ rule ∈ rules, rule.WellMade) →
    Tracks limit p rules (rules.map fresh)
  | [], _ => .nil
  | rule :: _, hrules => .part (l := fresh rule) (hrules rule List.mem_cons_self) True.intro
      (tracks_fresh limit p fun r hr => hrules r (List.mem_cons_of_mem _ hr))

/-- What is current is the same after a refresh as if it had just been looked up. -/
theorem refresh_eq {limit : Nat} {p : Place} {l : Lookahead} (h : l.Current limit p) :
    l.refresh limit p = l.lookUp limit p := by
  obtain ⟨rule, upcoming⟩ := l
  cases upcoming with
  | unknown => rfl
  | exhausted =>
    have hnone : rule.findWithin limit p = none := h
    simp only [refresh, lookUp, hnone]
  | found f =>
    have hcur : f.start < p.offset ∨ rule.findWithin limit p = some f := h
    by_cases hpast : f.start < p.offset
    · simp only [refresh, if_pos hpast]
    · simp only [refresh, if_neg hpast, lookUp, hcur.resolve_left hpast]

theorem rule_lookUp (limit : Nat) (p : Place) (l : Lookahead) : (l.lookUp limit p).rule = l.rule := by
  unfold lookUp
  cases l.rule.findWithin limit p <;> rfl

/-- **What was looked up stays current** however far the scan goes on, unless the search was given up. -/
theorem current_lookUp {limit : Nat} {p : Place} {l : Lookahead} (hrule : l.rule.WellMade)
    (hup : l.rule.givenUp limit p = false) (m : Nat) : (l.lookUp limit p).Current limit (p.skip m) := by
  unfold lookUp
  cases hfound : l.rule.findWithin limit p with
  | none => exact Rule.findWithin_none_skip hup hfound m
  | some f =>
    by_cases hpast : f.start < (p.skip m).offset
    · exact Or.inl hpast
    · exact Or.inr (Rule.findWithin_skip hrule hfound m (Nat.le_of_not_lt hpast))

theorem lookUp_of_givenUp {limit : Nat} {p : Place} {l : Lookahead} (hup : l.rule.givenUp limit p = true) :
    l.lookUp limit p = ⟨l.rule, .exhausted⟩ := by
  unfold lookUp
  cases hfound : l.rule.findWithin limit p with
  | none => rfl
  | some f =>
    rw [Rule.givenUp_of_findWithin_eq_some hfound] at hup
    cases hup

theorem earliest_lookUp_cons (limit : Nat) (p : Place) (l : Lookahead) (rest : List Lookahead) :
    earliest (l.lookUp limit p :: rest) = earlier (l.rule.findWithin limit p) (earliest rest) := by
  unfold lookUp
  rw [earliest]
  cases l.rule.findWithin limit p with
  | none => rfl
  | some f => cases earliest rest <;> rfl

namespace Tracks

variable {limit : Nat} {p : Place} {rules : List Rule} {known : List Lookahead}

/-- **The earliest of what is known** is the nearest match of the first rule that has one, of the rules that last. -/
theorem nearest (h : Tracks limit p rules known) :
    Nearest (firstWithin (lasting limit p rules) limit) p (earliest (known.map (refresh limit p))) := by
  induction h with
  | nil => exact fun k _ => rfl
  | out _ ih => exact ih
  | @part l rules known _ hcurrent _ ih =>
    rw [List.map_cons, refresh_eq hcurrent, lasting_cons]
    cases hup : l.rule.givenUp limit p with
    | true =>
      rw [lookUp_of_givenUp hup]
      exact ih
    | false =>
      rw [earliest_lookUp_cons]
      have hboth := (Rule.nearest_findWithin hup).earlier (Rule.onSite_fitsAt _ _) (onSite_firstWithin _ _) ih
      exact (funext (firstWithin_cons l.rule _ limit) :) ▸ hboth

/-- **What is known is known however far the scan goes on**, of the rules that last. -/
theorem skip (h : Tracks limit p rules known) (m : Nat) :
    Tracks limit (p.skip m) (lasting limit p rules) (known.map (refresh limit p)) := by
  induction h with
  | nil => exact .nil
  | out _ ih => exact .out ih
  | @part l rules known hrule hcurrent _ ih =>
    rw [List.map_cons, refresh_eq hcurrent, lasting_cons]
    cases hup : l.rule.givenUp limit p with
    | true =>
      rw [lookUp_of_givenUp hup]
      exact .out ih
    | false =>
      have hpart := Tracks.part (l := l.lookUp limit p) (by rwa [rule_lookUp]) (current_lookUp hrule hup m) ih
      rwa [rule_lookUp] at hpart

end Tracks

end Lookahead

/-! ## The scan -/

variable {rules : List Rule} {limit : Nat} {p : Place} {found : List Found}

/-- **The scan with its memory takes what the plain procedure takes**, when the memory is right. -/
theorem scanFrom_leftmost (limit : Nat) : ∀ (fuel : Nat) {p : Place} {rules : List Rule} {known : List Lookahead},
    p.after.length ≤ fuel → Lookahead.Tracks limit p rules known →
      LeftmostScan limit rules p (scanFrom limit fuel p known)
  | 0, p, rules, known, hfuel, _ => by
    have hend : p.after = [] := List.length_eq_zero_iff.1 (Nat.le_zero.1 hfuel)
    exact .done (Nearest.end_of_text hend)
  | fuel + 1, p, rules, known, hfuel, htracks => by
    have hnear := htracks.nearest
    rw [scanFrom]
    cases hearliest : Lookahead.earliest (known.map (Lookahead.refresh limit p)) with
    | none =>
      rw [hearliest] at hnear
      exact .done hnear
    | some f =>
      rw [hearliest] at hnear
      have hshort := length_next_lt hnear
      obtain ⟨k, -, -, hnext⟩ := hnear.next_eq_skip (onSite_firstWithin _ _)
      exact .take hnear (scanFrom_leftmost limit fuel (by omega) (hnext ▸ htracks.skip (k + f.length)))

theorem leftmostScan_scan (hrules : ∀ rule ∈ rules, rule.WellMade) (limit : Nat) (p : Place) :
    LeftmostScan limit rules p (scan rules limit p) :=
  scanFrom_leftmost limit _ (Nat.le_refl _) (Lookahead.tracks_fresh limit p hrules)

theorem LeftmostScan.unique {found' : List Found} (h : LeftmostScan limit rules p found)
    (h' : LeftmostScan limit rules p found') : found = found' := by
  induction h generalizing found' with
  | done hnear =>
    cases h' with
    | done => rfl
    | take hnear' _ => cases hnear.unique hnear'
  | take hnear _ ih =>
    cases h' with
    | done hnear' => cases hnear.unique hnear'
    | take hnear' hrest' =>
      cases hnear.unique hnear'
      rw [ih hrest']

theorem leftmostScan_iff (hrules : ∀ rule ∈ rules, rule.WellMade) :
    LeftmostScan limit rules p found ↔ found = scan rules limit p := by
  constructor
  · intro h
    exact h.unique (leftmostScan_scan hrules limit p)
  · rintro rfl
    exact leftmostScan_scan hrules limit p

theorem mem_lasting {rule : Rule} : rule ∈ lasting limit p rules ↔ rule ∈ rules ∧ rule.givenUp limit p = false := by
  simp [lasting]

/-- **If no rule drops out** the procedure is the plain one. -/
theorem LeftmostScan.plain (h : LeftmostScan limit rules p found)
    (hup : ∀ q ∈ p :: found.map Found.next, ∀ rule ∈ rules, rule.givenUp limit q = false) :
    PlainScan limit rules p found := by
  have hall : ∀ {rules : List Rule} {p : Place}, (∀ rule ∈ rules, rule.givenUp limit p = false) →
      lasting limit p rules = rules := fun h => List.filter_eq_self.2 fun rule hrule => by rw [h rule hrule]; rfl
  induction h with
  | done hnear =>
    rw [hall (hup _ List.mem_cons_self)] at hnear
    exact .done hnear
  | take hnear _ ih =>
    rw [hall (hup _ List.mem_cons_self)] at hnear ih
    exact .take hnear (ih fun q hq => hup q (List.mem_cons_of_mem _ hq))

/-- **Every place where a rule matches inside the region lies inside a match that was taken**, if the rule lasts. -/
theorem LeftmostScan.covers {rule : Rule} (h : LeftmostScan limit rules p found) (hrule : rule ∈ rules)
    (hup : ∀ q ∈ p :: found.map Found.next, rule.givenUp limit q = false) : ∀ k < p.after.length, ∀ g : Found,
      rule.fitsAt limit (p.skip k) = some g →
        ∃ f ∈ found, f.start ≤ (p.skip k).offset ∧ (p.skip k).offset < f.stop := by
  induction h with
  | done hnear =>
    intro k hk g hg
    have hlasts := mem_lasting.2 ⟨hrule, hup _ List.mem_cons_self⟩
    exact absurd (hnear k hk) (firstWithin_ne_none hlasts hg)
  | @take rules p f rest hnear _ ih =>
    intro k hk g hg
    have hlasts := mem_lasting.2 ⟨hrule, hup _ List.mem_cons_self⟩
    obtain ⟨k₀, hk₀, hf, hbefore⟩ := hnear
    have hsite : f.site = p.skip k₀ := onSite_firstWithin _ _ _ _ hf
    have hnext : f.next = p.skip (k₀ + f.length) := by rw [Found.next, hsite, Place.skip_add]
    have hfirst : k₀ ≤ k := Nat.le_of_not_lt fun hlt => firstWithin_ne_none hlasts hg (hbefore k hlt)
    -- the match is the first one, so the place is inside it or behind it
    by_cases hin : k < k₀ + f.length
    · have hplace : p.skip k = f.site.skip (k - k₀) := by
        rw [hsite, ← Place.skip_add, Nat.add_sub_cancel' hfirst]
      refine ⟨f, List.mem_cons_self, ?_⟩
      rw [hplace]
      refine Found.within_of_lt (by omega) ?_
      rw [hsite, Place.length_after_skip]
      omega
    · have hplace : p.skip k = f.next.skip (k - (k₀ + f.length)) := by
        rw [hnext, ← Place.skip_add, Nat.add_sub_cancel' (Nat.le_of_not_lt hin)]
      rw [hplace] at hg ⊢
      obtain ⟨f', hf', hwithin⟩ := ih hlasts (fun q hq => hup q (List.mem_cons_of_mem _ hq)) (k - (k₀ + f.length)) (by
        rw [hnext, Place.length_after_skip]
        omega) g hg
      exact ⟨f', List.mem_cons_of_mem _ hf', hwithin⟩

/-- Where no rule that lasts has a match nothing is taken. -/
theorem scan_eq_nil (hrules : ∀ rule ∈ rules, rule.WellMade) (hnone : ∀ rule ∈ rules, rule.givenUp limit p = true ∨
    ∀ k < p.after.length, rule.foundAt (p.skip k) = none) : scan rules limit p = [] := by
  refine ((leftmostScan_iff hrules).1 (.done fun k hk => ?_)).symm
  refine List.findSome?_eq_none_iff.2 fun rule hrule => ?_
  obtain ⟨hrule, hup⟩ := mem_lasting.1 hrule
  rcases hnone rule hrule with hgiven | hfound
  · rw [hup] at hgiven
    cases hgiven
  · exact Rule.fitsAt_eq_none fun f hf => by simp [hfound k hk] at hf

/-! ## The tokens -/

/-- A line has no tokens if the search for reserved words is given up, and it has nothing for the other rules. -/
theorem tokenize_eq_nil {line : List Char} (hup : Rule.reserved.givenUp (byteSize line) (Place.start line) = true)
    (hlacks : ∀ category : Category, category ≠ .keyword → ∀ c ∈ line, category.needs c = false) :
    tokenize line = [] := by
  rw [tokenize, scan_eq_nil Rule.wellMade_of_mem_scanner]
  · rfl
  · intro rule hrule
    by_cases hkeyword : rule.category = .keyword
    · have heq := Rule.eq_ofCategory .strict rule hrule
      rw [hkeyword] at heq
      exact Or.inl (heq ▸ hup)
    · exact Or.inr fun k _ => Rule.foundAt_eq_none_of_lacks .strict hrule (hlacks _ hkeyword) k

/-- **No rule drops out of a scan**: no search is given up from where it begins or from the end of a match it takes. -/
def Unhindered (limit : Nat) (rules : List Rule) (p : Place) : Prop :=
  ∀ q ∈ p :: (scan rules limit p).map Found.next, ∀ rule ∈ rules, rule.givenUp limit q = false

/-- The same for the scan of a line and those of its tags. -/
def UnhinderedTokens (line : List Char) : Prop :=
  Unhindered (byteSize line) Rule.scanner (Place.start line) ∧
    ∀ f ∈ scan Rule.scanner (byteSize line) (Place.start line), f.category = .tag → Unhindered f.stop Rule.nested f.site

theorem plainScan_iff (hrules : ∀ rule ∈ rules, rule.WellMade) (hfree : Unhindered limit rules p) :
    PlainScan limit rules p found ↔ found = scan rules limit p := by
  have hscan := (leftmostScan_scan hrules limit p).plain hfree
  constructor
  · exact fun h => h.unique hscan
  · rintro rfl
    exact hscan

/-- **A procedure that takes on every region of a line what the scan takes makes its tokens.** -/
theorem tokensBy_iff {procedure : Nat → List Rule → Place → List Found → Prop} {line : List Char}
    (hline : ∀ found, procedure (byteSize line) Rule.scanner (Place.start line) found ↔
      found = scan Rule.scanner (byteSize line) (Place.start line))
    (htags : ∀ f ∈ scan Rule.scanner (byteSize line) (Place.start line), f.category = .tag → ∀ found,
      procedure f.stop Rule.nested f.site found ↔ found = scan Rule.nested f.stop f.site) {tokens : List Token} :
    TokensBy procedure line tokens ↔ tokens = tokenize line := by
  constructor
  · rintro ⟨found, inside, hfound, hinside, rfl⟩
    obtain rfl := (hline found).1 hfound
    refine List.map_congr_left fun f hf => ?_
    unfold Token.ofFound
    by_cases htag : f.category = .tag
    · rw [if_pos htag, if_pos htag, (htags f hf htag _).1 (hinside f hf htag)]
    · rw [if_neg htag, if_neg htag]
      rfl
  · rintro rfl
    refine ⟨_, fun f => scan Rule.nested f.stop f.site, (hline _).2 rfl, fun f hf htag => (htags f hf htag _).2 rfl, ?_⟩
    refine List.map_congr_left fun f _ => ?_
    unfold Token.ofFound
    by_cases htag : f.category = .tag
    · rw [if_pos htag, if_pos htag]
    · rw [if_neg htag, if_neg htag]
      rfl

/-- **Scanning with a memory is scanning without one.**  From every place, with every list of rules and up to every
limit, the scan takes what the plain procedure takes with the rules that last, and nothing else, and so it makes the
tokens of a line.  If no rule drops out that is the plain procedure with all of them.  And every place where a rule that
lasts has a match that ends inside the region lies inside a match that the scan took. -/
theorem scan_leftmost :
    (∀ rules : List Rule, (∀ rule ∈ rules, rule.WellMade) → ∀ (limit : Nat) (p : Place),
      (∀ found, LeftmostScan limit rules p found ↔ found = scan rules limit p) ∧
      (Unhindered limit rules p → ∀ found, PlainScan limit rules p found ↔ found = scan rules limit p) ∧
      ∀ rule ∈ rules, (∀ q ∈ p :: (scan rules limit p).map Found.next, rule.givenUp limit q = false) →
        ∀ k < p.after.length, ∀ f : Found, rule.foundAt (p.skip k) = some f → f.stop ≤ limit →
          ∃ g ∈ scan rules limit p, g.start ≤ f.start ∧ f.start < g.stop) ∧
    ∀ line tokens, (TokensBy LeftmostScan line tokens ↔ tokens = tokenize line) ∧
      (UnhinderedTokens line → (TokensBy PlainScan line tokens ↔ tokens = tokenize line)) := by
  refine ⟨fun rules hrules limit p => ⟨fun found => leftmostScan_iff hrules,
    fun hfree found => plainScan_iff hrules hfree, fun rule hrule hup k hk f hf hstop => ?_⟩,
    fun line tokens => ⟨?_, fun hfree => ?_⟩⟩
  · have hcover := (leftmostScan_scan hrules limit p).covers hrule hup k hk f (Rule.fitsAt_eq_some.2 ⟨hf, hstop⟩)
    rwa [← (Rule.foundAt_eq_some hf).1] at hcover
  · exact tokensBy_iff (fun _ => leftmostScan_iff Rule.wellMade_of_mem_scanner)
      fun _ _ _ _ => leftmostScan_iff Rule.wellMade_of_mem_nested
  · exact tokensBy_iff (fun _ => plainScan_iff Rule.wellMade_of_mem_scanner hfree.1)
      fun f hf htag _ => plainScan_iff Rule.wellMade_of_mem_nested (hfree.2 f hf htag)

end

/-- No rule drops out of a line with a tag that has a name and a literal inside. -/
theorem scan_leftmost_tag : letI := Engine.backtracking
    let line := "let a = <b c='d'>".toList
    (∀ rule ∈ Rule.scanner, rule.WellMade) ∧ Unhindered 17 Rule.scanner (Place.start line) ∧ UnhinderedTokens line ∧
    PlainScan 17 Rule.scanner (Place.start line) (scan Rule.scanner 17 (Place.start line)) ∧
    TokensBy PlainScan line (tokenize line) ∧
    (∃ f, Rule.tags.foundAt ((Place.start line).skip 8) = some f ∧ f.stop ≤ 17 ∧
      ∃ g ∈ scan Rule.scanner 17 (Place.start line), g.start ≤ f.start ∧ f.start < g.stop) := by
  let := Engine.backtracking
  intro line
  have hfree : Unhindered 17 Rule.scanner (Place.start line) := by
    unfold Unhindered
    decide +kernel
  have hnested : ∀ f ∈ scan Rule.scanner 17 (Place.start line), f.category = .tag →
      Unhindered f.stop Rule.nested f.site := by
    unfold Unhindered
    decide +kernel
  obtain ⟨hscan, htokens⟩ := scan_leftmost
  obtain ⟨-, hplain, hcovers⟩ := hscan Rule.scanner Rule.wellMade_of_mem_scanner 17 (Place.start line)
  obtain ⟨f, hf, hstop⟩ : ∃ f, Rule.tags.foundAt ((Place.start line).skip 8) = some f ∧ f.stop ≤ 17 :=
    ⟨_, rfl, by decide⟩
  have htag : Rule.tags ∈ Rule.scanner := by simp [Rule.scanner, Rule.withTail]
  have hcover := hcovers Rule.tags htag (fun q hq => hfree q hq _ htag) 8 (by decide) f hf hstop
  exact ⟨Rule.wellMade_of_mem_scanner, hfree, ⟨hfree, hnested⟩, (hplain hfree _).2 rfl,
    ((htokens line _).2 ⟨hfree, hnested⟩).2 rfl, f, hf, hstop, hcover⟩

/-- On a line with a reserved word behind other words enough there are no tokens, and the plain procedure takes one. -/
theorem tokens_miss_late_word : letI := Engine.backtracking
    tokenize (Regex.lateWord 19999) = [] ∧
    ¬ TokensBy PlainScan (Regex.lateWord 19999) (tokenize (Regex.lateWord 19999)) := by
  let := Engine.backtracking
  have hup : Rule.reserved.givenUp (byteSize (Regex.lateWord 19999)) (Place.start (Regex.lateWord 19999)) = true :=
    Rule.givenUp_of_givesUp (byteSize_pos (by decide)) (Regex.givesUp_letters _ (by decide) 0)
  have hempty : tokenize (Regex.lateWord 19999) = [] := tokenize_eq_nil hup fun _ => Regex.lacks_lateWord
  refine ⟨hempty, ?_⟩
  rintro ⟨found, inside, hplain, -, htokens⟩
  rw [hempty] at htokens
  obtain rfl := List.map_eq_nil_iff.1 htokens.symm
  cases hplain with
  | done hnear =>
    obtain ⟨f, hf, hstart, hstop⟩ := Rule.exists_foundAt_lateWord 19999
    rw [← Rule.skip_lateWord] at hf
    have hfits := Rule.fitsAt_eq_some.2 ⟨hf, (hstop.trans (Regex.byteSize_lateWord _).symm).le⟩
    refine firstWithin_ne_none (by simp [Rule.scanner, Rule.withTail]) hfits (hnear _ ?_)
    show _ < (Regex.lateWord 19999).length
    rw [Regex.length_lateWord]
    omega

end JsxView
