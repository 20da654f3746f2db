import Arvolo.Presence.Delivered

/-!
What a subscription to an inbox hands on once, and where its acks go.
-/

namespace Arvolo.Presence.Client

open Crypto Lib

/-! ### Handed on once -/

/-- The rows read, in order. -/
def listedIds (log : List Entry) : List String :=
  log.flatMap fun
    | .listed _ ids => ids
    | _ => []

@[simp]
theorem listedIds_append (log new : List Entry) :
    listedIds (log ++ new) = listedIds log ++ listedIds new :=
  List.flatMap_append

/-- How many rows were read. -/
def rowsSeen (log : List Entry) : ℕ := (listedIds log).toFinset.card

theorem rowsSeen_le_append (log new : List Entry) : rowsSeen log ≤ rowsSeen (log ++ new) := by
  refine Finset.card_le_card fun id hid => ?_
  rw [listedIds_append, List.mem_toFinset]
  exact List.mem_append_left _ (List.mem_toFinset.1 hid)

theorem onIds_eq_nil {new : List Entry} (h : ∀ e ∈ new, ∀ o, e ≠ .on o) : onIds new = [] := by
  refine List.eq_nil_iff_forall_not_mem.2 fun id hid => ?_
  obtain ⟨o, ho, -⟩ := mem_onIds.1 hid
  exact h _ ho o rfl

section

variable {Identity Rand : Type} {r : Reader Identity Rand} {c : Client}

/-- Only what was read is handed on, and once as long as the set of what was is never
emptied. -/
structure Once (c : Client) : Prop where
  out : ∀ item ∈ c.out, item.id ∈ listedIds c.log
  on : ∀ id ∈ onIds c.log, id ∈ listedIds c.log
  once : rowsSeen c.log ≤ maxSeen →
    (onIds c.log).Nodup ∧ c.seen = (onIds c.log).toFinset

theorem once_fresh : Once fresh := ⟨nofun, nofun, fun _ => ⟨List.nodup_nil, rfl⟩⟩

/-- Whatever else happens, as long as nothing is handed on. -/
theorem Once.append (h : Once c) {d : Client} {new : List Entry} (hlog : d.log = c.log ++ new)
    (hseen : d.seen = c.seen) (hnew : ∀ e ∈ new, ∀ o, e ≠ .on o)
    (hout : ∀ item ∈ d.out, item ∈ c.out ∨ item.id ∈ listedIds new) : Once d := by
  have hon : onIds d.log = onIds c.log := by
    rw [hlog, onIds_append, onIds_eq_nil hnew, List.append_nil]
  refine ⟨fun item hitem => ?_, fun id hid => ?_, fun hrows => ?_⟩
  · rw [hlog, listedIds_append]
    rcases hout item hitem with hold | hlisted
    · exact List.mem_append_left _ (h.out item hold)
    · exact List.mem_append_right _ hlisted
  · rw [hon] at hid
    rw [hlog, listedIds_append]
    exact List.mem_append_left _ (h.on id hid)
  · rw [hlog] at hrows
    rw [hon, hseen]
    exact h.once ((rowsSeen_le_append c.log new).trans hrows)

theorem Once.asked (h : Once c) {first : Bool} {d : Client} (hd : Asked r c first d) : Once d := by
  obtain ⟨sessions, lastBackfill, new, rfl, hnew⟩ := hd
  refine h.append rfl rfl (fun e he o => ?_) fun item hitem => Or.inl hitem
  rw [(hnew e he).2]
  nofun

theorem Once.listed (h : Once c) (slot : String) (items : List InboxItem) (rest : List String)
    (held : Finset String) (backfill : Bool) :
    Once { c.rememberRows slot (items.map (·.id)) with
      held := held
      phase := .reading rest false backfill (c.out ++ items) } := by
  obtain ⟨rows, emptied, heq, hrows⟩ := rememberRows_eq c slot (items.map (·.id))
  rw [heq, List.append_assoc]
  refine h.append rfl rfl (fun e he o => ?_) fun item hitem => ?_
  · rcases List.mem_append.1 he with he | he
    · rcases hrows with ⟨-, rfl⟩ | ⟨-, rfl, -⟩
      · cases he
      · obtain rfl := List.mem_singleton.1 he
        nofun
    · obtain rfl := List.mem_singleton.1 he
      nofun
  · refine (List.mem_append.1 hitem).imp_right fun hitem => ?_
    rw [listedIds_append]
    refine List.mem_append_right _ ?_
    show item.id ∈ items.map (·.id) ++ []
    rw [List.append_nil]
    exact List.mem_map_of_mem hitem

theorem Once.deliver (h : Once c) : Once (c.deliver r c.out) := by
  obtain ⟨u, skips, seen, ons, heq, hskips, hons, rfl, hnodup, hfresh, -⟩ :=
    deliver_eq (r := r) c c.out
  have hskip : onIds skips = [] := onIds_eq_nil fun e he o => by
    obtain ⟨id, why, rfl⟩ := hskips e he
    nofun
  have hon : onIds (c.log ++ skips ++ ons) = onIds c.log ++ onIds ons := by
    rw [onIds_append, onIds_append, hskip, List.append_nil]
  rw [heq]
  refine ⟨nofun, fun id hid => ?_, fun hrows => ?_⟩
  · rw [hon] at hid
    rw [List.append_assoc, listedIds_append]
    refine List.mem_append_left _ ?_
    rcases List.mem_append.1 hid with hid | hid
    · exact h.on id hid
    · obtain ⟨o, ho, rfl⟩ := mem_onIds.1 hid
      obtain ⟨o', heq', item, hitem, hid'⟩ := hons _ ho
      obtain rfl := Entry.on.inj heq'
      rw [← hid']
      exact h.out item hitem
  · rw [List.append_assoc] at hrows
    have hbefore := (rowsSeen_le_append c.log _).trans hrows
    obtain ⟨hold, hseen⟩ := h.once hbefore
    -- so few that the set is not emptied
    have hcard : ¬ maxSeen < c.seen.card := by
      rw [hseen, not_lt]
      refine le_trans (Finset.card_le_card fun id hid => ?_) hbefore
      exact List.mem_toFinset.2 (h.on id (List.mem_toFinset.1 hid))
    simp only [if_neg hcard] at hfresh ⊢
    rw [hon]
    refine ⟨List.nodup_append.2 ⟨hold, hnodup, fun id hid id' hid' heq' => ?_⟩, ?_⟩
    · refine hfresh id' hid' ?_
      rw [hseen, ← heq']
      exact List.mem_toFinset.2 hid
    · rw [List.toFinset_append, hseen]

theorem Once.does (h : Once c) {e : Event} {c' : Client} (hdoes : Does r c e c') : Once c' := by
  have hquiet : ∀ {d : Client} {e' : Entry}, d.log = c.log ++ [e'] → d.seen = c.seen →
      d.out = c.out → (∀ o, e' ≠ .on o) → Once d := fun hlog hseen hout he' =>
    h.append hlog hseen (fun e he => by rw [List.mem_singleton.1 he]; exact he')
      fun item hitem => Or.inl (hout ▸ hitem)
  have hlog : c.log = c.log ++ [] := (List.append_nil _).symm
  cases hdoes with
  | still => exact h
  | names => exact h.append hlog rfl nofun fun item hitem => Or.inl hitem
  | begins hphase => exact h.append hlog rfl nofun nofun
  | leaves hphase hd hbytes =>
      exact (h.asked hd).append (List.append_nil _).symm rfl nofun nofun
  | passes todo b hphase hd =>
      refine (h.asked hd).append (List.append_nil _).symm rfl nofun fun item hitem => Or.inl ?_
      rw [out_eq (hd.phase_eq.trans hphase)]
      exact hitem
  | lists items b hphase hd =>
      rw [← out_eq (hd.phase_eq.trans hphase)]
      exact (h.asked hd).listed _ items _ _ b
  | delivers hphase =>
      rw [← out_eq hphase]
      exact h.deliver
  | acks acking => exact hquiet rfl rfl rfl nofun
  | fails acking sessions => exact h.append hlog rfl nofun fun item hitem => Or.inl hitem
  | acked acking sessions id => exact hquiet rfl rfl rfl nofun

end

/-! ### Where acks go -/

/-- Where a row was read last, if that is remembered. -/
def lastReadStep (id : String) (slot? : Option String) : Entry → Option String
  | .listed slot ids => if id ∈ ids then some slot else slot?
  | .emptied => none
  | .acked id' => if id' = id then none else slot?
  | _ => slot?

def lastRead (log : List Entry) (id : String) : Option String := log.foldl (lastReadStep id) none

@[simp]
theorem lastRead_concat (log : List Entry) (e : Entry) (id : String) :
    lastRead (log ++ [e]) id = lastReadStep id (lastRead log id) e := List.foldl_concat ..

theorem lastRead_append_of_ne {log new : List Entry} {id : String}
    (hnew : ∀ e ∈ new, ∀ slot?, lastReadStep id slot? e = slot?) :
    lastRead (log ++ new) id = lastRead log id := by
  induction new using List.reverseRecOn with
  | nil => rw [List.append_nil]
  | append_singleton new e ih =>
      rw [← List.append_assoc, lastRead_concat, hnew e (by simp)]
      exact ih fun e' he' => hnew e' (List.mem_append_left _ he')

theorem lookup_insertRows (rows : Table String String) (slot : String) (ids : List String)
    (id : String) :
    (insertRows rows slot ids).lookup id = if id ∈ ids then some slot else rows.lookup id := by
  induction ids generalizing rows with
  | nil => rfl
  | cons id' ids ih =>
      rw [insertRows, List.foldl_cons]
      refine (ih _).trans ?_
      rw [Table.lookup_insert_eq]
      by_cases hmem : id ∈ ids
      · rw [if_pos hmem, if_pos (List.mem_cons_of_mem _ hmem)]
      · by_cases hid : id = id' <;> simp [hmem, hid]

theorem length_le_insertRows (rows : Table String String) (slot : String) {ids : List String}
    (h : ids.Nodup) : ids.length ≤ (insertRows rows slot ids).entries.length := by
  have hsub : ids ⊆ (insertRows rows slot ids).keys := by
    intro id hid
    refine AList.mem_keys.1 (AList.lookup_isSome.1 ?_)
    rw [lookup_insertRows, if_pos hid]
    rfl
  have hlen := (h.subperm hsub).length_le
  rwa [AList.keys, List.keys, List.length_map] at hlen

/-- Where an ack goes, and when what is remembered is given up. -/
def Addressed {Identity Rand : Type} (r : Reader Identity Rand) (before : List Entry) :
    Entry → Prop
  | .ack id slot now => slot = (lastRead before id).getD (currentSlot r now)
  | .emptied => ∃ ids : Finset String, maxRowSlots < ids.card ∧
      ∀ id ∈ ids, (lastRead before id).isSome = true
  | _ => True

section

variable {Identity Rand : Type} {r : Reader Identity Rand} {c : Client}

structure Remembers (r : Reader Identity Rand) (c : Client) : Prop where
  addressed : Lawful (Addressed r) c.log
  recalls : ∀ id, c.rowSlots.lookup id = lastRead c.log id

theorem remembers_fresh : Remembers r fresh := ⟨lawful_nil, fun _ => rfl⟩

/-- Entries about neither rows nor slots. -/
def Aside : Entry → Prop
  | .have_ _ | .skipped _ _ | .on _ => True
  | _ => False

theorem Remembers.append (h : Remembers r c) {d : Client} {new : List Entry}
    (hlog : d.log = c.log ++ new) (hrows : d.rowSlots = c.rowSlots)
    (hnew : ∀ e ∈ new, Aside e) : Remembers r d := by
  refine ⟨?_, fun id => ?_⟩
  · rw [hlog]
    refine h.addressed.append fun _ e he => ?_
    have haside := hnew e he
    cases e with
    | have_ ids => trivial
    | skipped id why => trivial
    | on offer => trivial
    | _ => cases haside
  · rw [hlog, hrows, h.recalls, lastRead_append_of_ne fun e he slot? => ?_]
    have haside := hnew e he
    cases e with
    | have_ ids => rfl
    | skipped id why => rfl
    | on offer => rfl
    | _ => cases haside

theorem Remembers.asked (h : Remembers r c) {first : Bool} {d : Client}
    (hd : Asked r c first d) : Remembers r d := by
  obtain ⟨sessions, lastBackfill, new, rfl, hnew⟩ := hd
  exact h.append rfl rfl fun e he => by rw [(hnew e he).2]; trivial

theorem Remembers.listed (h : Remembers r c) (slot : String) (ids : List String)
    (held : Finset String) (phase : Phase) :
    Remembers r { c.rememberRows slot ids with held := held, phase := phase } := by
  obtain ⟨rows, emptied, heq, hrows⟩ := rememberRows_eq c slot ids
  have hbefore : Lawful (Addressed r) (c.log ++ emptied) ∧
      ∀ id, rows.lookup id = lastRead (c.log ++ emptied) id := by
    rcases hrows with ⟨rfl, rfl⟩ | ⟨rfl, rfl, hfull⟩
    · rw [List.append_nil]
      exact ⟨h.addressed, h.recalls⟩
    · refine ⟨h.addressed.concat ⟨c.rowSlots.keys.toFinset, ?_, fun id hid => ?_⟩, fun id => ?_⟩
      · have hcard : c.rowSlots.keys.toFinset.card = c.rowSlots.entries.length := by
          rw [List.toFinset_card_of_nodup c.rowSlots.keys_nodup]
          exact List.length_map _
        rwa [hcard]
      · rw [← h.recalls, AList.lookup_isSome]
        exact List.mem_toFinset.1 hid
      · rw [lastRead_concat]
        exact AList.lookup_empty id
  rw [heq]
  refine ⟨hbefore.1.concat trivial, fun id => ?_⟩
  rw [lastRead_concat]
  show (insertRows rows slot ids).lookup id = _
  rw [lookup_insertRows, hbefore.2]
  rfl

theorem Remembers.does (h : Remembers r c) {e : Event} {c' : Client} (hdoes : Does r c e c') :
    Remembers r c' := by
  cases hdoes with
  | still => exact h
  | names => exact ⟨h.addressed, h.recalls⟩
  | begins hphase => exact ⟨h.addressed, h.recalls⟩
  | leaves hphase hd hbytes => exact ⟨(h.asked hd).addressed, (h.asked hd).recalls⟩
  | passes todo b hphase hd => exact ⟨(h.asked hd).addressed, (h.asked hd).recalls⟩
  | lists items b hphase hd => exact (h.asked hd).listed _ _ _ _
  | delivers hphase =>
      obtain ⟨u, skips, seen, ons, heq, hskips, hons, -⟩ := deliver_eq (r := r) c _
      rw [heq, List.append_assoc]
      refine h.append rfl rfl fun e he => ?_
      rcases List.mem_append.1 he with he | he
      · obtain ⟨id, why, rfl⟩ := hskips e he
        trivial
      · obtain ⟨o, rfl, -⟩ := hons e he
        trivial
  | acks acking =>
      rename_i id now
      refine ⟨h.addressed.concat ?_, fun id' => ?_⟩
      · rw [Addressed, ← h.recalls]
      · rw [lastRead_concat]
        exact h.recalls id'
  | fails acking sessions => exact ⟨h.addressed, h.recalls⟩
  | acked acking sessions id =>
      refine ⟨h.addressed.concat trivial, fun id' => ?_⟩
      rw [lastRead_concat, Table.lookup_erase_eq, h.recalls]
      simp only [lastReadStep, eq_comm]

end

/-! ### Remembered, and where -/

/-- Read, and since then neither given up with the others nor acked. -/
def Remembered (before : List Entry) (id : String) : Prop := ∃ p slot ids q,
  before = p ++ .listed slot ids :: q ∧ id ∈ ids ∧ .emptied ∉ q ∧ .acked id ∉ q

/-- The row was read in no other slot. -/
def LivesIn (before : List Entry) (id home : String) : Prop :=
  ∀ slot ids, .listed slot ids ∈ before → id ∈ ids → slot = home

theorem isSome_lastRead_iff {log : List Entry} {id : String} :
    (lastRead log id).isSome = true ↔ Remembered log id := by
  induction log using List.reverseRecOn with
  | nil => exact ⟨nofun, fun ⟨p, slot, ids, q, h, _⟩ => absurd h (by simp)⟩
  | append_singleton log e ih =>
      -- the last entry is the listing itself, or comes after it
      have hlater : ∀ {p slot ids q}, log ++ [e] = p ++ .listed slot ids :: q → q ≠ [] →
          ∃ q', q = q' ++ [e] ∧ log = p ++ .listed slot ids :: q' := by
        intro p slot ids q h hq
        obtain ⟨q', e', rfl⟩ := List.eq_nil_or_concat q |>.resolve_left hq
        rw [List.concat_eq_append, ← List.cons_append, ← List.append_assoc] at h
        obtain ⟨hlog, he⟩ := List.append_inj' h rfl
        obtain rfl := List.singleton_inj.1 he
        exact ⟨q', List.concat_eq_append, hlog⟩
      have hkeep : (lastReadStep id (lastRead log id) e = lastRead log id) → e ≠ .emptied →
          e ≠ .acked id → (∀ slot ids, e = .listed slot ids → id ∉ ids) →
          ((lastRead (log ++ [e]) id).isSome = true ↔ Remembered (log ++ [e]) id) := by
        intro hstep hemptied hacked hlisted
        rw [lastRead_concat, hstep, ih]
        constructor
        · rintro ⟨p, slot, ids, q, rfl, hid, hq, hq'⟩
          refine ⟨p, slot, ids, q ++ [e], by simp, hid, ?_, ?_⟩
          · simp [hq, hemptied.symm]
          · simp [hq', hacked.symm]
        · rintro ⟨p, slot, ids, q, h, hid, hq, hq'⟩
          have hne : q ≠ [] := by
            rintro rfl
            obtain ⟨-, he⟩ := List.append_inj' h rfl
            exact hlisted slot ids (List.singleton_inj.1 he) hid
          obtain ⟨q', rfl, rfl⟩ := hlater h hne
          exact ⟨p, slot, ids, q', rfl, hid, fun h => hq (List.mem_append_left _ h),
            fun h => hq' (List.mem_append_left _ h)⟩
      have hlost : e = .emptied ∨ e = .acked id → ¬ Remembered (log ++ [e]) id := by
        rintro he ⟨p, slot, ids, q, h, hid, hq, hq'⟩
        have hne : q ≠ [] := by
          rintro rfl
          obtain ⟨-, heq⟩ := List.append_inj' h rfl
          rcases he with rfl | rfl <;> simp at heq
        obtain ⟨q', rfl, -⟩ := hlater h hne
        rcases he with rfl | rfl
        · exact hq (by simp)
        · exact hq' (by simp)
      cases e with
      | have_ ids => exact hkeep rfl nofun nofun nofun
      | skipped id' why => exact hkeep rfl nofun nofun nofun
      | on o => exact hkeep rfl nofun nofun nofun
      | ack id' slot now => exact hkeep rfl nofun nofun nofun
      | emptied =>
          rw [lastRead_concat]
          exact ⟨nofun, fun h => absurd h (hlost (Or.inl rfl))⟩
      | acked id' =>
          by_cases hid : id' = id
          · subst hid
            rw [lastRead_concat, lastReadStep, if_pos rfl]
            exact ⟨nofun, fun h => absurd h (hlost (Or.inr rfl))⟩
          · refine hkeep (if_neg hid) nofun (fun h => hid (Entry.acked.inj h)) nofun
      | listed slot ids =>
          by_cases hid : id ∈ ids
          · rw [lastRead_concat, lastReadStep, if_pos hid]
            exact ⟨fun _ => ⟨log, slot, ids, [], rfl, hid, nofun, nofun⟩, fun _ => rfl⟩
          · refine hkeep (if_neg hid) nofun nofun fun slot' ids' h => ?_
            obtain ⟨-, rfl⟩ := Entry.listed.inj h
            exact hid

theorem listed_of_lastRead {log : List Entry} {id slot : String}
    (h : lastRead log id = some slot) : ∃ ids, .listed slot ids ∈ log ∧ id ∈ ids := by
  induction log using List.reverseRecOn with
  | nil => cases h
  | append_singleton log e ih =>
      rw [lastRead_concat] at h
      have hold : lastRead log id = some slot → ∃ ids, .listed slot ids ∈ log ++ [e] ∧ id ∈ ids :=
        fun h => (ih h).imp fun ids hids => ⟨List.mem_append_left _ hids.1, hids.2⟩
      cases e with
      | have_ ids => exact hold h
      | skipped id' why => exact hold h
      | on o => exact hold h
      | ack id' slot' now => exact hold h
      | emptied => cases h
      | acked id' =>
          rw [lastReadStep] at h
          split_ifs at h
          exact hold h
      | listed slot' ids =>
          rw [lastReadStep] at h
          split_ifs at h with hid
          · obtain rfl := Option.some.inj h
            exact ⟨ids, by simp, hid⟩
          · exact hold h

/-! ### What the relay reads off the header -/

/-- What a relay draws for a row: letters and digits. -/
def IsId (id : String) : Prop := ',' ∉ id.toList ∧ ∀ ch ∈ id.toList, Sync.isWhitespace ch = false

theorem mem_of_mem_inboxHave {ids : List String} (h : ∀ id ∈ ids, IsId id) {id : String}
    (hid : id ∈ Relay.inboxHave (some (haveText ids))) : id ∈ ids := by
  cases ids with
  | nil =>
      have hnone : Relay.inboxHave (some "") = [] := by decide
      rw [haveText, String.intercalate_nil, hnone] at hid
      cases hid
  | cons first rest =>
      have hsplit : (haveText (first :: rest)).toList.splitOn ',' =
          (first :: rest).map String.toList := by
        rw [haveText, String.toList_intercalate]
        refine List.splitOn_intercalate ',' (fun l hl => ?_) (by simp)
        obtain ⟨id', hid', rfl⟩ := List.mem_map.1 hl
        exact (h id' hid').1
      unfold Relay.inboxHave at hid
      simp only [hsplit] at hid
      obtain ⟨l, hl, rfl⟩ := List.mem_map.1 (List.mem_filter.1 (List.mem_of_mem_take hid)).1
      obtain ⟨id', hid', rfl⟩ := List.mem_map.1 hl
      rw [String.ofList_toList, Relay.trim_eq_self (h id' hid').2]
      exact hid'

/-- An id as `random_claim` makes it. -/
theorem isId_lower_encode {cm : Relay.CaseMap} (hcm : cm.Ascii) (bytes : Bytes) :
    IsId (cm.lower (Base32.encode bytes)) := by
  constructor
  · intro hcomma
    obtain ⟨u, hu, hlower⟩ := Relay.mem_lower_encode hcm bytes hcomma
    have hnone : (Base32.alphabet.all fun u => u.toLower ≠ ',') = true := by decide +kernel
    exact of_decide_eq_true (List.all_eq_true.1 hnone u hu) hlower
  · intro ch hch
    obtain ⟨u, hu, rfl⟩ := Relay.mem_lower_encode hcm bytes hch
    exact (Relay.case_alphabet hu).2.2.2.2.2

/-- A relay that was told of these rows does not answer with what is in the slot. -/
def HoldsBack (p : Relay.InboxPrims) (s : Relay.Inbox) (slot : String) (ids : List String)
    (now : ℕ) : Prop :=
  ∃ draw deadline came auth, ∀ items,
    (s.finish p now draw (.poll slot (Relay.inboxHave (some (haveText ids))) deadline came
      auth)).2 ≠ .inr (.mark slot items came auth)

theorem mem_of_holdsBack {p : Relay.InboxPrims} {s : Relay.Inbox} {slot : String}
    {ids : List String} {now : ℕ} (hids : ∀ id ∈ ids, IsId id)
    (h : HoldsBack p s slot ids now) : ∀ item ∈ s.inboxList slot now, item.1 ∈ ids := by
  intro item hitem
  refine mem_of_mem_inboxHave hids ?_
  by_contra hnew
  obtain ⟨draw, deadline, came, auth, hback⟩ := h
  refine hback (s.inboxList slot now) ?_
  have hany : ((s.inboxList slot now).any fun item =>
      decide (item.1 ∉ Relay.inboxHave (some (haveText ids)))) = true :=
    List.any_eq_true.2 ⟨item, hitem, by simpa using hnew⟩
  simp only [Relay.Inbox.finish, hany, if_true]

/-! ### A run -/

section

variable {Identity Rand : Type} (r : Reader Identity Rand)

theorem truthful_run {events : List Event}
    (h : Along (step r) OlderReadable fresh events) : Truthful (fresh.run r events) :=
  h.foldl_inv Truthful (fun c e hc he => hc.does (step_does r c e) he) truthful_fresh

theorem once_run (events : List Event) : Once (fresh.run r events) :=
  foldl_inv Once (fun c e hc => hc.does (step_does r c e)) once_fresh events

theorem remembers_run (events : List Event) : Remembers r (fresh.run r events) :=
  foldl_inv (Remembers r) (fun c e hc => hc.does (step_does r c e)) remembers_fresh events

/-- An ack goes to where the row was read last, and to the current slot if that is not known. -/
theorem ack_slot {events : List Event} {before after : List Entry} {id slot : String} {now : ℕ}
    (hlog : (fresh.run r events).log = before ++ .ack id slot now :: after) :
    (Remembered before id → ∀ home, LivesIn before id home → slot = home) ∧
      (¬ Remembered before id → slot = currentSlot r now) := by
  have hslot : slot = (lastRead before id).getD (currentSlot r now) :=
    (remembers_run r events).addressed before _ after hlog
  refine ⟨fun hrem home hhome => ?_, fun hrem => ?_⟩
  · obtain ⟨last, hlast⟩ := Option.isSome_iff_exists.1 (isSome_lastRead_iff.2 hrem)
    obtain ⟨ids, hmem, hid⟩ := listed_of_lastRead hlast
    rw [hslot, hlast, Option.getD_some]
    exact hhome last ids hmem hid
  · have hnone : lastRead before id = none := by
      rw [← Option.not_isSome_iff_eq_none]
      exact mt isSome_lastRead_iff.1 hrem
    rw [hslot, hnone, Option.getD_none]

/-- As long as every answer for an older slot is a list of rows, no row is told of that
has not been handed on, and what a relay then holds back has been. A row is handed on
once while no more than 4096 are read. An ack goes to the slot the row lives in if that
is remembered, and to the current one if it is not; what is remembered is only given up
when it is more than 1024 rows. -/
theorem run_hides_nothing (events : List Event) :
    (Along (step r) OlderReadable fresh events → ∀ before ids after,
      (fresh.run r events).log = before ++ .have_ ids :: after →
        (∀ id ∈ ids, Delivered before id) ∧
        ∀ p s slot now, (∀ id ∈ ids, IsId id) → HoldsBack p s slot ids now →
          ∀ item ∈ s.inboxList slot now, Delivered before item.1) ∧
    (rowsSeen (fresh.run r events).log ≤ maxSeen → (onIds (fresh.run r events).log).Nodup) ∧
    (∀ before id slot now after,
      (fresh.run r events).log = before ++ .ack id slot now :: after →
        (Remembered before id → ∀ home, LivesIn before id home → slot = home) ∧
        (¬ Remembered before id → slot = currentSlot r now)) ∧
    ∀ before after, (fresh.run r events).log = before ++ .emptied :: after →
      ∃ rows : Finset String, maxRowSlots < rows.card ∧ ∀ id ∈ rows, Remembered before id := by
  refine ⟨fun halong before ids after hlog => ?_, fun hrows => ((once_run r events).once hrows).1,
    fun before id slot now after hlog => ?_, fun before after hlog => ?_⟩
  · have htold := (truthful_run r halong).told before _ after hlog ids rfl
    exact ⟨htold, fun p s slot now hids hback item hitem =>
      htold _ (mem_of_holdsBack hids hback item hitem)⟩
  · exact ack_slot r hlog
  · obtain ⟨rows, hcard, hrows⟩ := (remembers_run r events).addressed before _ after hlog
    exact ⟨rows, hcard, fun id hid => isSome_lastRead_iff.1 (hrows id hid)⟩

end

/-! ### Told of, and not handed on -/

def plainReader : Reader UInt8 Unit where
  hpke := standIn
  me := 1
  slotForEpoch e := if e = 0 then "a" else "b"
  bearer _ _ _ := ""
  hashOrder s := s.sort (· ≤ ·)
  mem_hashOrder := Finset.mem_sort _

/-- Within the second epoch. -/
def noon : ℕ := inboxEpochSecs

/-- A request that a relay answers. -/
def said (body : Bytes) : Exchange :=
  ⟨noon, some (⟨[], noon + 1000, []⟩, noon), .body body, none, .lost⟩

section

variable {c : Client} {slot : String}

theorem authed_said (hslot : epochOf plainReader noon slot ≠ none) (have_ : Option (List String))
    (body : Bytes) : ∃ sessions, c.authed plainReader slot have_ (said body) =
      (some body, ({ c with sessions := sessions } : Client).send have_) := by
  obtain ⟨epoch, hepoch⟩ := Option.ne_none_iff_exists'.1 hslot
  unfold authed ensureSession said
  simp only [Bool.false_eq_true, if_false]
  cases (c.sessions.lookup slot).filter fun s => decide (noon + 60 < s.exp) with
  | some session => exact ⟨c.sessions, rfl⟩
  | none =>
      simp only [hepoch]
      exact ⟨_, rfl⟩

theorem get_said {rest : List String} {first backfill : Bool} {out : List InboxItem}
    (hslot : epochOf plainReader noon slot ≠ none)
    (hphase : c.phase = .reading (slot :: rest) first backfill out)
    (hdue : first = true ∨ backfill = true ∨ c.lastBackfill = 0) (body : Bytes) :
    ∃ sessions lastBackfill, c.step plainReader (.get noon (said body)) =
      (({ c with sessions := sessions, lastBackfill := lastBackfill } : Client).send
        (if first then c.haveHeader plainReader else none)).answered slot rest first
          (if first then backfill else true) out (some body) ∧
      (first = true → lastBackfill = c.lastBackfill) ∧
      (first = false → backfill = false → lastBackfill = noon) := by
  have hlook : ∃ l, (if first || backfill then (true, c) else c.backfillDue noon) =
      (true, { c with lastBackfill := l }) ∧ (first = true → l = c.lastBackfill) ∧
        (first = false → backfill = false → l = noon) := by
    cases first with
    | true => exact ⟨c.lastBackfill, rfl, fun _ => rfl, nofun⟩
    | false =>
        cases backfill with
        | true => exact ⟨c.lastBackfill, rfl, nofun, nofun⟩
        | false =>
            have hzero : c.lastBackfill = 0 := by simpa using hdue
            refine ⟨noon, ?_, nofun, fun _ _ => rfl⟩
            simp only [Bool.or_false, Bool.false_eq_true, if_false, backfillDue, hzero]
            rw [if_neg (by decide)]
  obtain ⟨l, hlook, hfirst, hsecond⟩ := hlook
  obtain ⟨s, hauthed⟩ := authed_said (c := { c with lastBackfill := l }) hslot
    (if first then haveHeader plainReader { c with lastBackfill := l } else none) body
  have hstep : c.step plainReader (.get noon (said body)) =
      c.readSlot plainReader slot rest first backfill out noon (said body) := by
    simp only [step, hphase]
  refine ⟨s, l, ?_, hfirst, hsecond⟩
  rw [hstep]
  unfold readSlot
  rw [hlook]
  simp only [if_true, hauthed]
  rfl

theorem answered_items {rest : List String} {first backfill : Bool} {out items : List InboxItem}
    (hgood : inboxItemCodec.vec.Good items) :
    c.answered slot rest first backfill out (some (encodeInboxItems items)) =
      { c.rememberRows slot (items.map (·.id)) with
        held := if first then (items.map (·.id)).toFinset else
          (c.rememberRows slot (items.map (·.id))).held
        phase := .reading rest false backfill (out ++ items) } := by
  have hdecode : decodeInboxItems (encodeInboxItems items) = some items :=
    Sync.fromBytes_write hgood
  have hne : (encodeInboxItems items).isEmpty = false := by
    by_contra hempty
    rw [Bool.not_eq_false, List.isEmpty_iff] at hempty
    rw [hempty] at hdecode
    have hnone : decodeInboxItems [] = none := rfl
    rw [hnone] at hdecode
    cases hdecode
  unfold answered
  simp only [hne, Bool.false_eq_true, if_false, hdecode]

theorem round_noon (hphase : c.phase = .idle) :
    c.step plainReader (.round noon) = { c with phase := .reading ["b", "a"] true false [] } := by
  have hslots : readSlots plainReader noon = ["b", "a"] := by decide
  simp only [step, hphase, hslots]

theorem epochOf_b : epochOf plainReader noon "b" ≠ none := by decide

theorem epochOf_a : epochOf plainReader noon "a" ≠ none := by decide

end

def row (n : ℕ) : InboxItem := ⟨String.ofList (List.replicate n 'r'), []⟩

/-- The rows whose ids have one letter up to `n`. -/
def rows (n : ℕ) : List InboxItem := (List.range n).map fun k => row (k + 1)

theorem good_rows {n : ℕ} (hn : n < 2 ^ 32) : inboxItemCodec.vec.Good (rows n) := by
  have hutf8 : ∀ k, (utf8 (List.replicate k 'r')).length = k := by
    intro k
    induction k with
    | zero => rfl
    | succ k ih =>
        rw [List.replicate_succ, utf8, List.flatMap_cons, List.length_append]
        show 1 + (utf8 (List.replicate k 'r')).length = k + 1
        rw [ih, Nat.add_comm]
  refine ⟨?_, fun item hitem => ?_⟩
  · show (rows n).length < 2 ^ 64
    rw [rows, List.length_map, List.length_range]
    omega
  · obtain ⟨k, hk, rfl⟩ := List.mem_map.1 hitem
    have hlt := List.mem_range.1 hk
    refine ⟨?_, ?_⟩
    · show (utf8 (String.ofList (List.replicate (k + 1) 'r')).toList).length < 2 ^ 64
      rw [String.toList_ofList, hutf8]
      omega
    · show 0 < 2 ^ 64
      norm_num

theorem nodup_rows (n : ℕ) : ((rows n).map (·.id)).Nodup := by
  rw [rows, List.map_map]
  refine (List.nodup_range).map fun j k h => ?_
  have hlen := congrArg (fun x : String => x.toList.length) h
  simpa [row] using hlen

theorem run_cons {Identity Rand : Type} (r : Reader Identity Rand) (c : Client) (e : Event)
    (events : List Event) : c.run r (e :: events) = (c.step r e).run r events := rfl

theorem olderReadable_said {c : Client} {body : Bytes}
    (h : body = [] ∨ decodeInboxItems body ≠ none) : OlderReadable c (.get noon (said body)) := by
  simp only [OlderReadable]
  split
  · intro bytes hbytes
    obtain rfl : body = bytes := Option.some.inj hbytes
    exact h
  · trivial

/-- A row is read and handed on, and the next round is answered that there is no other. -/
def oneRow : List Event :=
  [.round noon, .get noon (said (encodeInboxItems (rows 1))), .get noon (said []), .deliver,
    .round noon, .get noon (said [])]

/-- The second slot's answer is no list of rows, and the round is given up with what the
first listed neither handed on nor forgotten. -/
def givenUp : List Event :=
  [.round noon, .get noon (said (encodeInboxItems (rows 1))), .get noon (said [0xFF]),
    .round noon, .get noon (said [])]

theorem log_givenUp : (fresh.run plainReader givenUp).log =
    [.listed "b" ["r"], .have_ ["r"]] := by
  have hids : (rows 1).map (·.id) = ["r"] := by decide
  obtain ⟨s₁, l₁, h₁, hl₁, -⟩ := get_said
    (c := { fresh with phase := .reading ["b", "a"] true false [] }) epochOf_b rfl (.inl rfl)
    (encodeInboxItems (rows 1))
  rw [answered_items (good_rows (by norm_num)), hids] at h₁
  obtain rfl : l₁ = 0 := hl₁ rfl
  obtain ⟨s₂, l₂, h₂, -, -⟩ := get_said
    (c := { fresh with
      sessions := s₁
      rowSlots := insertRows ∅ "b" ["r"]
      held := {"r"}
      phase := .reading ["a"] false false (rows 1)
      log := [.listed "b" ["r"]] }) epochOf_a rfl (.inr (.inr rfl)) [0xFF]
  obtain ⟨s₃, l₃, h₃, -, -⟩ := get_said
    (c := { fresh with
      sessions := s₂
      rowSlots := insertRows ∅ "b" ["r"]
      lastBackfill := l₂
      held := {"r"}
      phase := .reading ["b", "a"] true false []
      log := [.listed "b" ["r"]] }) epochOf_b rfl (.inl rfl) []
  have hhead : ∀ c : Client, c.held = {"r"} → c.haveHeader plainReader = some ["r"] := by
    intro c hc
    unfold haveHeader
    rw [hc, if_neg (Finset.singleton_ne_empty _)]
    show some (Finset.sort {"r"}) = some ["r"]
    rw [Finset.sort_singleton]
  rw [givenUp, run_cons, round_noon (c := fresh) rfl, run_cons]
  refine (congrArg (fun c => (run plainReader c _).log) h₁).trans ?_
  refine (congrArg (fun c => (run plainReader c _).log) h₂).trans ?_
  rw [run_cons]
  refine (congrArg (fun c => (run plainReader c _).log) (round_noon rfl)).trans ?_
  refine (congrArg (fun c => (run plainReader c []).log) h₃).trans ?_
  rw [if_pos rfl, hhead _ rfl]
  rfl

/-- The older slot lists more than 1024 rows, and the next row of the current one makes
the client forget where they live. -/
def crowded : List Event :=
  [.round noon, .get noon (said []), .get noon (said (encodeInboxItems (rows 1025))), .deliver,
    .round noon, .get noon (said (encodeInboxItems (rows 1))), .ack "rr" noon]

theorem log_forgotten {c : Client} (hheld : c.held = ∅)
    (hfull : maxRowSlots < c.rowSlots.entries.length) (held : Finset String) (phase : Phase) :
    (step plainReader { (c.send (c.haveHeader plainReader)).rememberRows "b" ["r"] with
      held := held, phase := phase } (.ack "rr" noon)).log =
        c.log ++ [.emptied, .listed "b" ["r"], .ack "rr" "b" noon] := by
  have hslot : ((insertRows ∅ "b" ["r"]).lookup "rr").getD (currentSlot plainReader noon) =
      "b" := by decide
  have hnone : c.haveHeader plainReader = none := if_pos hheld
  have hrows : c.rememberRows "b" ["r"] = { c with
      rowSlots := insertRows ∅ "b" ["r"]
      log := c.log ++ [.emptied] ++ [.listed "b" ["r"]] } := by
    unfold rememberRows
    rw [if_pos hfull]
    rfl
  rw [hnone, send, hrows]
  show c.log ++ [.emptied] ++ [.listed "b" ["r"]] ++ [.ack "rr" (((insertRows ∅ "b" ["r"]).lookup
    "rr").getD (currentSlot plainReader noon)) noon] = _
  rw [hslot, List.append_assoc, List.append_assoc]
  rfl

theorem log_crowded : ∃ new, (fresh.run plainReader crowded).log =
    .listed "a" ((rows 1025).map (·.id)) ::
      (new ++ [.emptied, .listed "b" ["r"], .ack "rr" "b" noon]) ∧
    Delivered new "rr" ∧ ∀ e ∈ new, (∃ id why, e = .skipped id why) ∨ ∃ o, e = .on o := by
  have hids : (rows 1).map (·.id) = ["r"] := by decide
  have hgood : inboxItemCodec.vec.Good (rows 1025) := good_rows (by norm_num)
  have hfull : maxRowSlots < (insertRows ∅ "a" ((rows 1025).map (·.id))).entries.length := by
    have hlen := length_le_insertRows ∅ "a" (nodup_rows 1025)
    rw [List.length_map, rows, List.length_map, List.length_range] at hlen
    exact hlen
  have hrow : row 2 ∈ rows 1025 := List.mem_map.2 ⟨1, List.mem_range.2 (by norm_num), rfl⟩
  rw [crowded]
  -- nothing else about these rows matters
  generalize rows 1025 = many at hgood hfull hrow ⊢
  obtain ⟨s₁, l₁, h₁, hl₁, -⟩ := get_said
    (c := { fresh with phase := .reading ["b", "a"] true false [] }) epochOf_b rfl (.inl rfl) []
  obtain rfl : l₁ = 0 := hl₁ rfl
  obtain ⟨s₂, l₂, h₂, -, -⟩ := get_said
    (c := { fresh with
      sessions := s₁
      phase := .reading ["a"] false false [] }) epochOf_a rfl (.inr (.inr rfl))
    (encodeInboxItems many)
  rw [answered_items hgood] at h₂
  obtain ⟨u, skips, seen, ons, h₃, hskips, hons, hseen, -, -, hall⟩ := deliver_eq (r := plainReader)
    { fresh with
      sessions := s₂
      rowSlots := insertRows ∅ "a" (many.map (·.id))
      lastBackfill := l₂
      phase := .reading [] false true many
      log := [.listed "a" (many.map (·.id))] } many
  obtain ⟨s₄, l₄, h₄, -, -⟩ := get_said
    (c := { fresh with
      sessions := s₂
      rowSlots := insertRows ∅ "a" (many.map (·.id))
      undecodable := u
      lastBackfill := l₂
      seen := (if maxSeen < (∅ : Finset String).card then ∅ else ∅) ∪ seen
      phase := .reading ["b", "a"] true false []
      log := [.listed "a" (many.map (·.id))] ++ skips ++ ons }) epochOf_b rfl (.inl rfl)
    (encodeInboxItems (rows 1))
  rw [answered_items (good_rows (by norm_num)), hids] at h₄
  refine ⟨skips ++ ons, ?_, ?_, fun e he => ?_⟩
  · rw [run_cons, round_noon (c := fresh) rfl, run_cons]
    refine (congrArg (fun c => (run plainReader c _).log) h₁).trans ?_
    refine (congrArg (fun c => (run plainReader c _).log) h₂).trans ?_
    refine (congrArg (fun c => (run plainReader c _).log) h₃).trans ?_
    rw [run_cons]
    refine (congrArg (fun c => (run plainReader c _).log) (round_noon rfl)).trans ?_
    refine (congrArg (fun c => (run plainReader c _).log) h₄).trans ?_
    rw [if_pos rfl, if_pos rfl]
    exact (log_forgotten rfl hfull _ _).trans (by simp only [List.cons_append,
      List.nil_append, List.append_assoc])
  · have hid : (row 2).id = "rr" := by decide
    have hdone := hall (row 2) hrow
    rw [hid] at hdone
    rcases hdone with ⟨why, hwhy⟩ | hon
    · exact .inl ⟨why, List.mem_append_left _ hwhy⟩
    · refine .inr ?_
      rw [onIds_append]
      refine List.mem_append_right _ (List.mem_toFinset.1 ?_)
      rw [← hseen]
      exact (Finset.mem_union.1 hon).resolve_left (by simp [fresh])
  · rcases List.mem_append.1 he with he | he
    · exact .inl (hskips e he)
    · obtain ⟨o, rfl, -⟩ := hons e he
      exact .inr ⟨o, rfl⟩

theorem run_hides_nothing_oneRow :
    Along (step plainReader) OlderReadable fresh oneRow ∧
      (∀ before ids after, (fresh.run plainReader oneRow).log = before ++ .have_ ids :: after →
        ∀ id ∈ ids, Delivered before id) := by
  have hrows : encodeInboxItems (rows 1) = [] ∨
      decodeInboxItems (encodeInboxItems (rows 1)) ≠ none := by
    refine .inr fun hnone => ?_
    have hread : decodeInboxItems (encodeInboxItems (rows 1)) = some (rows 1) :=
      Sync.fromBytes_write (good_rows (by norm_num))
    exact Option.some_ne_none _ (hread.symm.trans hnone)
  have halong : Along (step plainReader) OlderReadable fresh oneRow :=
    ⟨trivial, olderReadable_said hrows, olderReadable_said (.inl rfl), trivial, trivial,
      olderReadable_said (.inl rfl), trivial⟩
  exact ⟨halong, fun before ids after hlog =>
    ((run_hides_nothing plainReader oneRow).1 halong before ids after hlog).1⟩

/-- The row was read in the older slot alone and handed on, and its ack goes to the other. -/
theorem ack_crowded : ∃ before after,
    (fresh.run plainReader crowded).log = before ++ .ack "rr" "b" noon :: after ∧
      Delivered before "rr" ∧ (∃ ids, .listed "a" ids ∈ before ∧ "rr" ∈ ids) ∧
      LivesIn before "rr" "a" ∧ .acked "rr" ∉ before := by
  obtain ⟨new, hlog, hdelivered, hnew⟩ := log_crowded
  have hrr : "rr" ∈ (rows 1025).map (·.id) :=
    List.mem_map.2 ⟨row 2, List.mem_map.2 ⟨1, List.mem_range.2 (by norm_num), rfl⟩, by decide⟩
  have hr : "rr" ∉ ["r"] := by decide
  generalize (rows 1025).map (·.id) = many at hlog hrr
  refine ⟨.listed "a" many :: (new ++ [.emptied, .listed "b" ["r"]]), [], ?_, ?_, ?_, ?_, ?_⟩
  · rw [hlog]
    simp
  · rcases hdelivered with ⟨why, hwhy⟩ | hon
    · exact .inl ⟨why, by simp [hwhy]⟩
    · refine .inr (mem_onIds.2 ?_)
      obtain ⟨o, ho, hid⟩ := mem_onIds.1 hon
      exact ⟨o, by simp [ho], hid⟩
  · exact ⟨many, List.mem_cons_self, hrr⟩
  · intro slot ids hmem hid
    simp only [List.mem_cons, List.mem_append, List.not_mem_nil, or_false] at hmem
    rcases hmem with heq | hmem | heq | heq
    · cases heq
      rfl
    · rcases hnew _ hmem with ⟨_, _, heq⟩ | ⟨_, heq⟩ <;> cases heq
    · cases heq
    · cases heq
      exact absurd hid hr
  · intro hmem
    simp only [List.mem_cons, List.mem_append, List.not_mem_nil, or_false] at hmem
    rcases hmem with heq | hmem | heq | heq
    · cases heq
    · rcases hnew _ hmem with ⟨_, _, heq⟩ | ⟨_, heq⟩ <;> cases heq
    · cases heq
    · cases heq

/-- A row is held back that was never handed on; and an ack of one that was goes to a
slot it is not in. -/
theorem not_run_hides_nothing :
    (∃ before after, (fresh.run plainReader givenUp).log = before ++ .have_ ["r"] :: after ∧
      ¬ Delivered before "r") ∧
    ∃ before after, (fresh.run plainReader crowded).log = before ++ .ack "rr" "b" noon :: after ∧
      Delivered before "rr" ∧ (∃ ids, .listed "a" ids ∈ before ∧ "rr" ∈ ids) ∧
      LivesIn before "rr" "a" ∧ .acked "rr" ∉ before := by
  refine ⟨⟨[.listed "b" ["r"]], [], log_givenUp, ?_⟩, ack_crowded⟩
  rintro (⟨why, hmem⟩ | hmem)
  · cases List.mem_singleton.1 hmem
  · cases hmem

end Arvolo.Presence.Client
