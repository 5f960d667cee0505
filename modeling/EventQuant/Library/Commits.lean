import Mathlib
import EventQuant.Library.Runs

/-!
Programs over a store that other readers see: each commits its changes one by
one, reads the store as its own commits have left it, and returns or raises.
What each commit keeps, the store keeps at every point the program can be cut
short. A program is safe when each of its commits meets a condition on the
store it falls on.
-/
namespace EventQuant

/-- How one commit changes the store. -/
class Store (σ : Type*) (ω : outParam Type*) where
  apply : σ → ω → σ

namespace Store

variable {σ ω : Type*} [Store σ ω]

def settle (s : σ) (commits : List ω) : σ := commits.foldl apply s

@[simp] theorem settle_nil (s : σ) : settle s ([] : List ω) = s := rfl

@[simp] theorem settle_cons (s : σ) (w : ω) (ws : List ω) :
    settle s (w :: ws) = settle (apply s w) ws := rfl

theorem settle_append (s : σ) (ws vs : List ω) :
    settle s (ws ++ vs) = settle (settle s ws) vs := List.foldl_append

/-- Each commit meets the condition on the store it falls on. -/
def Each (ok : σ → ω → Prop) : σ → List ω → Prop
  | _, [] => True
  | s, w :: ws => ok s w ∧ Each ok (apply s w) ws

instance Each.instDecidable {ok : σ → ω → Prop} [∀ s w, Decidable (ok s w)] :
    ∀ (s : σ) (ws : List ω), Decidable (Each ok s ws)
  | _, [] => .isTrue trivial
  | s, w :: ws =>
    have : Decidable (Each ok (apply s w) ws) := instDecidable (apply s w) ws
    inferInstanceAs (Decidable (ok s w ∧ Each ok (apply s w) ws))

theorem Each.append {ok : σ → ω → Prop} {s : σ} {ws vs : List ω} (h : Each ok s ws)
    (h' : Each ok (settle s ws) vs) : Each ok s (ws ++ vs) := by
  induction ws generalizing s with
  | nil => exact h'
  | cons w ws ih => exact ⟨h.1, ih h.2 h'⟩

theorem Each.mono {ok ok' : σ → ω → Prop} (himp : ∀ s w, ok s w → ok' s w) {s : σ} {ws : List ω}
    (h : Each ok s ws) : Each ok' s ws := by
  induction ws generalizing s with
  | nil => trivial
  | cons w ws ih => exact ⟨himp s w h.1, ih h.2⟩

/-- What holds of every commit, wherever it falls, holds of each. -/
theorem Each.and_forall {ok : σ → ω → Prop} {allowed : ω → Prop} {s : σ} {ws : List ω}
    (h : Each ok s ws) (h' : ∀ w ∈ ws, allowed w) : Each (fun s w => ok s w ∧ allowed w) s ws := by
  induction ws generalizing s with
  | nil => trivial
  | cons w ws ih =>
    exact ⟨⟨h.1, h' w List.mem_cons_self⟩, ih h.2 fun w' hw' => h' w' (List.mem_cons_of_mem _ hw')⟩

/-- Commits of a kind that is safe wherever it falls. -/
theorem each_of_forall {ok : σ → ω → Prop} {allowed : ω → Prop} {ws : List ω}
    (h : ∀ w ∈ ws, allowed w) (hok : ∀ w, allowed w → ∀ s, ok s w) {s : σ} : Each ok s ws := by
  induction ws generalizing s with
  | nil => trivial
  | cons w ws ih =>
    exact ⟨hok w (h w List.mem_cons_self) s, ih fun w' hw' => h w' (List.mem_cons_of_mem _ hw')⟩

/-- The commits a program got to before it was cut short are safe too. -/
theorem Each.take {ok : σ → ω → Prop} {s : σ} {ws : List ω} (h : Each ok s ws) (n : ℕ) :
    Each ok s (ws.take n) := by
  induction ws generalizing s n with
  | nil => simpa using h
  | cons w ws ih =>
    cases n with
    | zero => trivial
    | succ n => exact ⟨h.1, ih h.2 n⟩

/-- Each commit meets the condition on what the commits before it left. -/
theorem Each.at {ok : σ → ω → Prop} {s : σ} {ws : List ω} (h : Each ok s ws) {n : ℕ} {w : ω}
    (hw : ws[n]? = some w) : ok (settle s (ws.take n)) w := by
  induction ws generalizing s n with
  | nil => simp at hw
  | cons v ws ih =>
    cases n with
    | zero =>
      obtain rfl : v = w := by simpa using hw
      exact h.1
    | succ n => exact ih h.2 (by simpa using hw)

/-- Commits that each stay inside a preorder stay inside it together. -/
theorem Each.relates {ok : σ → ω → Prop} (rel : σ → σ → Prop) (hrefl : ∀ s, rel s s)
    (htrans : ∀ s t u, rel s t → rel t u → rel s u) (hok : ∀ s w, ok s w → rel s (apply s w))
    {s : σ} {ws : List ω} (h : Each ok s ws) : rel s (settle s ws) := by
  induction ws generalizing s with
  | nil => exact hrefl s
  | cons w ws ih => exact htrans s _ _ (hok s w h.1) (ih h.2)

/-- What each commit preserves is preserved together. -/
theorem Each.preserves {ok : σ → ω → Prop} (inv : σ → Prop)
    (hok : ∀ s w, ok s w → inv s → inv (apply s w)) {s : σ} {ws : List ω} (h : Each ok s ws)
    (hs : inv s) : inv (settle s ws) := by
  induction ws generalizing s with
  | nil => exact hs
  | cons w ws ih => exact ih h.2 (hok s w h.1 hs)

end Store

open Store

universe u

/-- What a program commits from the store it starts on, and how it ends. -/
structure Program (σ ω ε : Type*) (α : Type u) where
  run : σ → List ω × Except ε α

namespace Program

variable {σ ω ε : Type*} {α β : Type u}

def commits (p : Program σ ω ε α) (s : σ) : List ω := (p.run s).1

def result (p : Program σ ω ε α) (s : σ) : Except ε α := (p.run s).2

def return' (a : α) : Program σ ω ε α := ⟨fun _ => ([], .ok a)⟩

def raise (e : ε) : Program σ ω ε α := ⟨fun _ => ([], .error e)⟩

def read (f : σ → α) : Program σ ω ε α := ⟨fun s => ([], .ok (f s))⟩

def commit (w : ω) : Program σ ω ε Unit := ⟨fun _ => ([w], .ok ())⟩

def answer (r : Except ε α) : Program σ ω ε α := ⟨fun _ => ([], r)⟩

section Single

variable (s : σ)

@[simp] theorem result_return (a : α) : (return' a : Program σ ω ε α).result s = .ok a := rfl

@[simp] theorem result_raise (e : ε) : (raise e : Program σ ω ε α).result s = .error e := rfl

@[simp] theorem result_read (f : σ → α) : (read f : Program σ ω ε α).result s = .ok (f s) := rfl

@[simp] theorem result_commit (w : ω) : (commit w : Program σ ω ε Unit).result s = .ok () := rfl

@[simp] theorem result_answer (r : Except ε α) : (answer r : Program σ ω ε α).result s = r := rfl

@[simp] theorem commits_return (a : α) : (return' a : Program σ ω ε α).commits s = [] := rfl

@[simp] theorem commits_raise (e : ε) : (raise e : Program σ ω ε α).commits s = [] := rfl

@[simp] theorem commits_read (f : σ → α) : (read f : Program σ ω ε α).commits s = [] := rfl

@[simp] theorem commits_commit (w : ω) : (commit w : Program σ ω ε Unit).commits s = [w] := rfl

@[simp] theorem commits_answer (r : Except ε α) :
    (answer r : Program σ ω ε α).commits s = [] := rfl

end Single

/-- Whatever it starts on, the program commits only what is allowed. -/
def Emits (allowed : ω → Prop) (p : Program σ ω ε α) : Prop :=
  ∀ s, ∀ w ∈ p.commits s, allowed w

section Emits

variable {allowed : ω → Prop} {p : Program σ ω ε α}

theorem emits_return (a : α) : Emits allowed (return' a : Program σ ω ε α) :=
  fun _ _ hw => absurd hw List.not_mem_nil

theorem emits_raise (e : ε) : Emits allowed (raise e : Program σ ω ε α) :=
  fun _ _ hw => absurd hw List.not_mem_nil

theorem emits_read (f : σ → α) : Emits allowed (read f : Program σ ω ε α) :=
  fun _ _ hw => absurd hw List.not_mem_nil

theorem emits_answer (r : Except ε α) : Emits allowed (answer r : Program σ ω ε α) :=
  fun _ _ hw => absurd hw List.not_mem_nil

theorem emits_commit {w : ω} (hw : allowed w) : Emits allowed (commit w : Program σ ω ε Unit) := by
  intro _ w' hw'
  rw [commits_commit, List.mem_singleton] at hw'
  exact hw' ▸ hw

theorem Emits.mono {allowed' : ω → Prop} (h : Emits allowed p)
    (himp : ∀ w, allowed w → allowed' w) : Emits allowed' p :=
  fun s w hw => himp w (h s w hw)

end Emits

/-- The program returned the value somewhere, with its commits among these. -/
def Ran (p : Program σ ω ε α) (a : α) (ws : List ω) : Prop :=
  ∃ t, p.result t = .ok a ∧ p.commits t ⊆ ws

theorem Ran.mono {p : Program σ ω ε α} {a : α} {ws vs : List ω} (h : Ran p a ws) (hsub : ws ⊆ vs) :
    Ran p a vs := by
  obtain ⟨t, hresult, hcommits⟩ := h
  exact ⟨t, hresult, List.Subset.trans hcommits hsub⟩

variable [Store σ ω]

def after (p : Program σ ω ε α) (s : σ) : σ := settle s (p.commits s)

def andThen (p : Program σ ω ε α) (f : α → Program σ ω ε β) : Program σ ω ε β where
  run s :=
    match p.result s with
    | .error e => (p.commits s, .error e)
    | .ok a => (p.commits s ++ (f a).commits (p.after s), (f a).result (p.after s))

/-- What the program committed stands when the handler takes over. -/
def handle (p : Program σ ω ε α) (f : ε → Program σ ω ε α) : Program σ ω ε α where
  run s :=
    match p.result s with
    | .ok a => (p.commits s, .ok a)
    | .error e => (p.commits s ++ (f e).commits (p.after s), (f e).result (p.after s))

instance : Monad (Program σ ω ε) where
  pure := return'
  bind := andThen

@[simp] theorem pure_eq (a : α) : (pure a : Program σ ω ε α) = return' a := rfl

@[simp] theorem bind_eq (p : Program σ ω ε α) (f : α → Program σ ω ε β) :
    (p >>= f) = p.andThen f := rfl

def forEach {γ : Type*} (items : List γ) (body : γ → Program σ ω ε Unit) :
    Program σ ω ε Unit :=
  items.foldr (fun item rest => (body item).andThen fun _ => rest) (return' ())

@[simp] theorem forEach_nil {γ : Type*} (body : γ → Program σ ω ε Unit) :
    forEach [] body = return' () := rfl

@[simp] theorem forEach_cons {γ : Type*} (item : γ) (items : List γ)
    (body : γ → Program σ ω ε Unit) :
    forEach (item :: items) body = (body item).andThen fun _ => forEach items body := rfl

def collect {γ : Type*} (items : List γ) (body : γ → Program σ ω ε α) : Program σ ω ε (List α) :=
  items.foldr
    (fun item rest => (body item).andThen fun a => rest.andThen fun as => return' (a :: as))
    (return' [])

@[simp] theorem collect_nil {γ : Type*} (body : γ → Program σ ω ε α) :
    collect [] body = return' [] := rfl

@[simp] theorem collect_cons {γ : Type*} (item : γ) (items : List γ)
    (body : γ → Program σ ω ε α) : collect (item :: items) body =
      (body item).andThen fun a => (collect items body).andThen fun as => return' (a :: as) := rfl

section Running

variable (p : Program σ ω ε α) (s : σ)

@[simp] theorem after_return (a : α) : (return' a : Program σ ω ε α).after s = s := rfl

@[simp] theorem after_read (f : σ → α) : (read f : Program σ ω ε α).after s = s := rfl

@[simp] theorem after_commit (w : ω) : (commit w : Program σ ω ε Unit).after s = apply s w := rfl

@[simp] theorem after_answer (r : Except ε α) : (answer r : Program σ ω ε α).after s = s := rfl

/-- A sequence returns what its second part returns after its first. -/
theorem result_andThen (f : α → Program σ ω ε β) :
    (p.andThen f).result s = (p.result s).bind fun a => (f a).result (p.after s) := by
  simp only [result, andThen]
  cases (p.run s).2 <;> rfl

variable {p s}

theorem commits_andThen_error {f : α → Program σ ω ε β} {e : ε} (h : p.result s = .error e) :
    (p.andThen f).commits s = p.commits s := by
  simp only [result, commits, andThen] at h ⊢
  rw [h]

theorem commits_andThen_ok {f : α → Program σ ω ε β} {a : α} (h : p.result s = .ok a) :
    (p.andThen f).commits s = p.commits s ++ (f a).commits (p.after s) := by
  simp only [result, commits, andThen] at h ⊢
  rw [h]

theorem result_andThen_error {f : α → Program σ ω ε β} {e : ε} (h : p.result s = .error e) :
    (p.andThen f).result s = .error e := by
  rw [result_andThen, h]
  rfl

theorem result_andThen_ok {f : α → Program σ ω ε β} {a : α} (h : p.result s = .ok a) :
    (p.andThen f).result s = (f a).result (p.after s) := by
  rw [result_andThen, h]
  rfl

theorem after_andThen_ok {f : α → Program σ ω ε β} {a : α} (h : p.result s = .ok a) :
    (p.andThen f).after s = (f a).after (p.after s) := by
  rw [after, commits_andThen_ok h, settle_append]
  rfl

/-- A sequence that returned ran through its first part. -/
theorem andThen_returned {f : α → Program σ ω ε β} {b : β}
    (h : (p.andThen f).result s = .ok b) :
    ∃ a, p.result s = .ok a ∧ (f a).result (p.after s) = .ok b := by
  rw [result_andThen] at h
  cases hp : p.result s with
  | error e => simp [hp, Except.bind] at h
  | ok a => exact ⟨a, rfl, by simpa [hp, Except.bind] using h⟩

theorem result_handle_ok {f : ε → Program σ ω ε α} {a : α} (h : p.result s = .ok a) :
    (p.handle f).result s = .ok a := by
  simp only [result, handle] at h ⊢
  rw [h]

theorem commits_handle_ok {f : ε → Program σ ω ε α} {a : α} (h : p.result s = .ok a) :
    (p.handle f).commits s = p.commits s := by
  simp only [result, commits, handle] at h ⊢
  rw [h]

theorem result_handle_error {f : ε → Program σ ω ε α} {e : ε} (h : p.result s = .error e) :
    (p.handle f).result s = (f e).result (p.after s) := by
  simp only [result, handle] at h ⊢
  rw [h]

theorem commits_handle_error {f : ε → Program σ ω ε α} {e : ε} (h : p.result s = .error e) :
    (p.handle f).commits s = p.commits s ++ (f e).commits (p.after s) := by
  simp only [result, commits, handle] at h ⊢
  rw [h]

theorem after_handle_error {f : ε → Program σ ω ε α} {e : ε} (h : p.result s = .error e) :
    (p.handle f).after s = (f e).after (p.after s) := by
  rw [after, commits_handle_error h, settle_append]
  rfl

/-- A handler that only returns leaves what the program left. -/
theorem handle_return (p : Program σ ω ε α) (a : α) (s : σ) :
    (∃ a', (p.handle fun _ => return' a).result s = .ok a') ∧
      (p.handle fun _ => return' a).after s = p.after s := by
  cases hresult : p.result s with
  | ok a' =>
    refine ⟨⟨a', result_handle_ok hresult⟩, ?_⟩
    rw [after, commits_handle_ok hresult]
    rfl
  | error e =>
    refine ⟨⟨a, ?_⟩, ?_⟩
    · rw [result_handle_error hresult]
      rfl
    · rw [after_handle_error hresult]
      rfl

/-- What a handler that only returns makes of a program's end. -/
theorem result_handle_return (p : Program σ ω ε α) (g : ε → α) (s : σ) :
    (p.handle fun e => return' (g e)).result s =
      .ok (match p.result s with
        | .ok a => a
        | .error e => g e) := by
  cases hresult : p.result s with
  | ok a => rw [result_handle_ok hresult]
  | error e => rw [result_handle_error hresult, result_return]

/-- A handled program that returned did so by itself or by its handler. -/
theorem handle_returned {f : ε → Program σ ω ε α} {a : α} (h : (p.handle f).result s = .ok a) :
    (p.result s = .ok a ∧ (p.handle f).commits s = p.commits s) ∨
      ∃ e, p.result s = .error e ∧ (f e).result (p.after s) = .ok a := by
  cases hresult : p.result s with
  | ok a' => exact .inl ⟨result_handle_ok hresult ▸ h, commits_handle_ok hresult⟩
  | error e => exact .inr ⟨e, rfl, result_handle_error hresult ▸ h⟩

theorem commits_sub_andThen (f : α → Program σ ω ε β) :
    p.commits s ⊆ (p.andThen f).commits s := by
  cases h : p.result s with
  | error e => rw [commits_andThen_error h]; exact List.Subset.refl _
  | ok a => rw [commits_andThen_ok h]; exact List.subset_append_left _ _

theorem commits_sub_handle (f : ε → Program σ ω ε α) :
    p.commits s ⊆ (p.handle f).commits s := by
  cases h : p.result s with
  | ok a => rw [commits_handle_ok h]; exact List.Subset.refl _
  | error e => rw [commits_handle_error h]; exact List.subset_append_left _ _

end Running

/-- Safe commits of both parts of a sequence are safe together. -/
theorem each_andThen {ok : σ → ω → Prop} {s : σ} {p : Program σ ω ε α} {f : α → Program σ ω ε β}
    (hp : Each ok s (p.commits s))
    (hf : ∀ a, p.result s = .ok a → Each ok (p.after s) ((f a).commits (p.after s))) :
    Each ok s ((p.andThen f).commits s) := by
  cases hresult : p.result s with
  | error e => exact commits_andThen_error hresult ▸ hp
  | ok a => exact commits_andThen_ok hresult ▸ hp.append (hf a hresult)

theorem each_handle {ok : σ → ω → Prop} {s : σ} {p : Program σ ω ε α} {f : ε → Program σ ω ε α}
    (hp : Each ok s (p.commits s))
    (hf : ∀ e, p.result s = .error e → Each ok (p.after s) ((f e).commits (p.after s))) :
    Each ok s ((p.handle f).commits s) := by
  cases hresult : p.result s with
  | ok a => exact commits_handle_ok hresult ▸ hp
  | error e => exact commits_handle_error hresult ▸ hp.append (hf e hresult)

/-- A collection that returned ran its first body and then the rest. -/
theorem collect_cons_returned {γ : Type*} {item : γ} {items : List γ} {body : γ → Program σ ω ε α}
    {as : List α} {s : σ} (h : (collect (item :: items) body).result s = .ok as) :
    (∃ a, (body item).result s = .ok a) ∧
      (∃ as', (collect items body).result ((body item).after s) = .ok as') ∧
      (collect (item :: items) body).after s =
        (collect items body).after ((body item).after s) := by
  obtain ⟨a, ha, hrest⟩ := andThen_returned h
  obtain ⟨as', has', -⟩ := andThen_returned hrest
  change (collect items body).result _ = .ok as' at has'
  refine ⟨⟨a, ha⟩, ⟨as', has'⟩, ?_⟩
  rw [collect_cons, after_andThen_ok ha, after_andThen_ok has', after_return]

theorem each_collect {ok : σ → ω → Prop} {γ : Type*} (items : List γ)
    {body : γ → Program σ ω ε α} (hbody : ∀ item ∈ items, ∀ t, Each ok t ((body item).commits t))
    (s : σ) : Each ok s ((collect items body).commits s) := by
  induction items generalizing s with
  | nil => trivial
  | cons item items ih =>
    refine each_andThen (hbody item List.mem_cons_self s) fun _ _ => ?_
    exact each_andThen (ih (fun item' hitem' => hbody item' (List.mem_cons_of_mem _ hitem')) _)
      fun _ _ => trivial

/-- Bodies that each return or raise wherever they start are collected where all
of them return. -/
theorem collect_isOk {γ : Type*} (items : List γ) {body : γ → Program σ ω ε α} {good : γ → Bool}
    (h : ∀ item t, ((body item).result t).isOk = good item) (s : σ) :
    ((collect items body).result s).isOk = items.all good := by
  induction items generalizing s with
  | nil => rfl
  | cons item items ih =>
    rw [collect_cons, List.all_cons, ← h item s, ← ih ((body item).after s), result_andThen]
    cases (body item).result s with
    | error e => rfl
    | ok a =>
      rw [Except.bind, result_andThen]
      cases (collect items body).result _ <;> rfl

/-- Bodies that leave alone what the later ones read collect what each comes to. -/
theorem collect_result {γ : Type*} {items : List γ} {body : γ → Program σ ω ε α} {value : γ → α}
    (ready : γ → σ → Prop) (hbody : ∀ item t, ready item t → (body item).result t = .ok (value item))
    (hframe : items.Pairwise fun item later =>
      ∀ t, ready later t → ready later ((body item).after t))
    {s : σ} (hs : ∀ item ∈ items, ready item s) :
    (collect items body).result s = .ok (items.map value) := by
  induction items generalizing s with
  | nil => rfl
  | cons item items ih =>
    obtain ⟨hlater, hframe⟩ := List.pairwise_cons.mp hframe
    have hitem := hbody item s (hs item List.mem_cons_self)
    have hitems := ih hframe (s := (body item).after s) fun later hmem =>
      hlater later hmem s (hs later (List.mem_cons_of_mem _ hmem))
    rw [collect_cons, result_andThen_ok hitem, result_andThen_ok hitems, result_return, List.map_cons]

/-- A collection of bodies that each return wherever they start, with the same
commits. -/
theorem collect_steady {γ : Type*} {items : List γ} {body : γ → Program σ ω ε α} {s : σ}
    (R : γ → α → Prop) (sent : γ → List ω)
    (h : ∀ item ∈ items, ∀ t, ∃ a, (body item).result t = .ok a ∧ (body item).commits t = sent item ∧
      R item a) :
    ∃ as, (collect items body).result s = .ok as ∧
      (collect items body).commits s = items.flatMap sent ∧ List.Forall₂ R items as := by
  induction items generalizing s with
  | nil => exact ⟨[], rfl, rfl, .nil⟩
  | cons item items ih =>
    obtain ⟨a, ha, hsent, hR⟩ := h item List.mem_cons_self s
    obtain ⟨as, has, hsents, hRs⟩ := ih (s := (body item).after s) fun item' hitem' =>
      h item' (List.mem_cons_of_mem _ hitem')
    refine ⟨a :: as, ?_, ?_, .cons hR hRs⟩
    · rw [collect_cons, result_andThen_ok ha, result_andThen_ok has, result_return]
    · rw [collect_cons, commits_andThen_ok ha, commits_andThen_ok has, commits_return, hsent, hsents,
        List.append_nil, List.flatMap_cons]

/-- A loop goes on with the later items once the earlier ones are done. -/
theorem commits_forEach_append {γ : Type*} {items : List γ} (items' : List γ)
    {body : γ → Program σ ω ε Unit} {s : σ} (h : (forEach items body).result s = .ok ()) :
    (forEach (items ++ items') body).commits s =
      (forEach items body).commits s ++ (forEach items' body).commits ((forEach items body).after s) := by
  induction items generalizing s with
  | nil => rfl
  | cons item items ih =>
    obtain ⟨_, hfirst, hrest⟩ := andThen_returned h
    rw [List.cons_append, forEach_cons, forEach_cons, commits_andThen_ok hfirst,
      commits_andThen_ok hfirst, after_andThen_ok hfirst, ih hrest, List.append_assoc]

theorem forEach_returns {γ : Type*} {items : List γ} {body : γ → Program σ ω ε Unit} {s : σ}
    (h : ∀ item ∈ items, ∀ t, (body item).result t = .ok ()) :
    (forEach items body).result s = .ok () := by
  induction items generalizing s with
  | nil => rfl
  | cons item items ih =>
    rw [forEach_cons, result_andThen_ok (h item List.mem_cons_self s)]
    exact ih fun item' hitem' => h item' (List.mem_cons_of_mem _ hitem')

/-- A loop whose bodies do nothing does nothing. -/
theorem commits_forEach_nil {γ : Type*} {items : List γ} {body : γ → Program σ ω ε Unit} {s : σ}
    (h : ∀ item ∈ items, (body item).result s = .ok () ∧ (body item).commits s = []) :
    (forEach items body).commits s = [] := by
  induction items with
  | nil => rfl
  | cons item items ih =>
    obtain ⟨hdone, hnone⟩ := h item List.mem_cons_self
    have hsame : (body item).after s = s := by rw [after, hnone, settle_nil]
    rw [forEach_cons, commits_andThen_ok hdone, hnone, hsame, List.nil_append]
    exact ih fun item' hitem' => h item' (List.mem_cons_of_mem _ hitem')

/-- Every commit is safe where it falls; a value returned meets `post` and an
exception meets `thrown`, each on the store it ends on. -/
structure Safe (ok : σ → ω → Prop) (p : Program σ ω ε α) (post : α → σ → Prop)
    (thrown : ε → σ → Prop) (s : σ) : Prop where
  each : Each ok s (p.commits s)
  returned : ∀ a, p.result s = .ok a → post a (p.after s)
  raised : ∀ e, p.result s = .error e → thrown e (p.after s)

variable {ok : σ → ω → Prop} {s : σ} {post : α → σ → Prop} {thrown : ε → σ → Prop}

theorem Safe.mono {p : Program σ ω ε α} {post' : α → σ → Prop} {thrown' : ε → σ → Prop}
    (h : Safe ok p post thrown s) (hpost : ∀ a t, post a t → post' a t)
    (hthrown : ∀ e t, thrown e t → thrown' e t) : Safe ok p post' thrown' s :=
  ⟨h.each, fun a ha => hpost a _ (h.returned a ha), fun e he => hthrown e _ (h.raised e he)⟩

/-- What holds however the program ended. -/
theorem Safe.at_end {p : Program σ ω ε α} {inv : σ → Prop}
    (h : Safe ok p (fun _ => inv) (fun _ => inv) s) : inv (p.after s) := by
  cases hresult : p.result s with
  | error e => exact h.raised e hresult
  | ok a => exact h.returned a hresult

theorem safe_return (a : α) (h : post a s) :
    Safe ok (return' a : Program σ ω ε α) post thrown s where
  each := trivial
  returned b hb := by
    simp only [result, return', Except.ok.injEq] at hb
    exact hb ▸ h
  raised e he := by simp [result, return'] at he

theorem safe_raise (e : ε) (h : thrown e s) :
    Safe ok (raise e : Program σ ω ε α) post thrown s where
  each := trivial
  returned b hb := by simp [result, raise] at hb
  raised f hf := by
    simp only [result, raise, Except.error.injEq] at hf
    exact hf ▸ h

theorem safe_read (f : σ → α) (h : post (f s) s) :
    Safe ok (read f : Program σ ω ε α) post thrown s where
  each := trivial
  returned b hb := by
    simp only [result, read, Except.ok.injEq] at hb
    exact hb ▸ h
  raised e he := by simp [result, read] at he

theorem safe_answer (r : Except ε α) (hreturned : ∀ a, r = .ok a → post a s)
    (hraised : ∀ e, r = .error e → thrown e s) :
    Safe ok (answer r : Program σ ω ε α) post thrown s :=
  ⟨trivial, hreturned, hraised⟩

theorem safe_commit {post : Unit → σ → Prop} (w : ω) (hw : ok s w) (h : post () (apply s w)) :
    Safe ok (commit w : Program σ ω ε Unit) post thrown s where
  each := ⟨hw, trivial⟩
  returned _ _ := h
  raised e he := by simp [result, commit] at he

theorem safe_andThen {p : Program σ ω ε β} {f : β → Program σ ω ε α} {q : β → σ → Prop}
    (hp : Safe ok p q thrown s) (hf : ∀ b t, q b t → Safe ok (f b) post thrown t) :
    Safe ok (p.andThen f) post thrown s := by
  cases hresult : p.result s with
  | error e =>
    refine ⟨commits_andThen_error hresult ▸ hp.each, fun a ha => ?_, fun e' he' => ?_⟩
    · simp [result_andThen_error hresult] at ha
    · rw [result_andThen_error hresult, Except.error.injEq] at he'
      subst he'
      rw [after, commits_andThen_error hresult]
      exact hp.raised e hresult
  | ok b =>
    have hrest := hf b _ (hp.returned b hresult)
    refine ⟨?_, fun a ha => ?_, fun e he => ?_⟩
    · rw [commits_andThen_ok hresult]
      exact hp.each.append hrest.each
    · rw [result_andThen_ok hresult] at ha
      rw [after_andThen_ok hresult]
      exact hrest.returned a ha
    · rw [result_andThen_ok hresult] at he
      rw [after_andThen_ok hresult]
      exact hrest.raised e he

theorem safe_handle {p : Program σ ω ε α} {f : ε → Program σ ω ε α} {thrown' : ε → σ → Prop}
    (hp : Safe ok p post thrown s) (hf : ∀ e t, thrown e t → Safe ok (f e) post thrown' t) :
    Safe ok (p.handle f) post thrown' s := by
  cases hresult : p.result s with
  | ok a =>
    refine ⟨commits_handle_ok hresult ▸ hp.each, fun b hb => ?_, fun e he => ?_⟩
    · rw [result_handle_ok hresult, Except.ok.injEq] at hb
      subst hb
      rw [after, commits_handle_ok hresult]
      exact hp.returned a hresult
    · simp [result_handle_ok hresult] at he
  | error e =>
    have hrest := hf e _ (hp.raised e hresult)
    refine ⟨?_, fun a ha => ?_, fun e' he' => ?_⟩
    · rw [commits_handle_error hresult]
      exact hp.each.append hrest.each
    · rw [result_handle_error hresult] at ha
      rw [after_handle_error hresult]
      exact hrest.returned a ha
    · rw [result_handle_error hresult] at he'
      rw [after_handle_error hresult]
      exact hrest.raised e' he'

/-- The loop rule: an invariant that every body keeps, returned or raised. -/
theorem safe_forEach {γ : Type*} {items : List γ} {body : γ → Program σ ω ε Unit} (inv : σ → Prop)
    (hbody : ∀ item ∈ items, ∀ t, inv t → Safe ok (body item) (fun _ => inv) (fun _ => inv) t)
    (hs : inv s) : Safe ok (forEach items body) (fun _ => inv) (fun _ => inv) s := by
  induction items generalizing s with
  | nil => exact safe_return () hs
  | cons item items ih =>
    refine safe_andThen (hbody item List.mem_cons_self s hs) (fun _ t ht => ?_)
    exact ih (fun item' hitem' => hbody item' (List.mem_cons_of_mem _ hitem')) ht

/-- The rule for a loop whose bodies each count on something of their own item
and do something for it, which the bodies of the other items leave alone. -/
theorem safe_forEach_own {γ : Type*} {items : List γ} {body : γ → Program σ ω ε Unit}
    (own did : γ → σ → Prop)
    (hbody : ∀ item ∈ items, ∀ t, own item t → Safe ok (body item) (fun _ => did item) thrown t)
    (hothers : items.Pairwise fun item item' => ∀ t,
      (own item' t → own item' ((body item).after t)) ∧
        (did item t → did item ((body item').after t)))
    (hs : ∀ item ∈ items, own item s) :
    Safe ok (forEach items body)
      (fun _ t => (∀ item ∈ items, did item t) ∧ ∀ kept : σ → Prop,
        (∀ item ∈ items, ∀ t, kept t → kept ((body item).after t)) → kept s → kept t) thrown s := by
  induction items generalizing s with
  | nil => exact safe_return () ⟨fun _ hitem => absurd hitem List.not_mem_nil, fun _ _ hs => hs⟩
  | cons item items ih =>
    obtain ⟨hfirst, hrest⟩ := List.pairwise_cons.mp hothers
    have hdo := hbody item List.mem_cons_self s (hs item List.mem_cons_self)
    have hlater : ∀ item' ∈ items, own item' ((body item).after s) := fun item' hitem' =>
      (hfirst item' hitem' s).1 (hs item' (List.mem_cons_of_mem _ hitem'))
    refine safe_andThen (q := fun _ t => t = (body item).after s ∧ did item t)
      ⟨hdo.each, fun a ha => ⟨rfl, hdo.returned a ha⟩, hdo.raised⟩ ?_
    rintro _ t ⟨rfl, hdid⟩
    have hloop := ih (fun item' hitem' => hbody item' (List.mem_cons_of_mem _ hitem')) hrest hlater
    refine hloop.mono (fun _ t ht => ⟨fun item' hitem' => ?_, fun kept hkept hbefore => ?_⟩)
      fun _ _ h => h
    · rcases List.mem_cons.mp hitem' with rfl | hitem'
      · exact ht.2 (did item') (fun other hother t => (hfirst other hother t).2) hdid
      · exact ht.1 item' hitem'
    · exact ht.2 kept (fun other hother => hkept other (List.mem_cons_of_mem _ hother))
        (hkept item List.mem_cons_self s hbefore)

/-- The rule for a collection: an invariant that every body keeps, and what each
body does for its item, which the later ones leave done. -/
theorem safe_collect {γ : Type*} {items : List γ} {body : γ → Program σ ω ε α} (inv : σ → Prop)
    (did : γ → α → σ → Prop)
    (hbody : ∀ item ∈ items, ∀ t, inv t → Safe ok (body item)
      (fun a t' => inv t' ∧ did item a t' ∧ ∀ item' a', did item' a' t → did item' a' t') thrown t)
    (hs : inv s) : Safe ok (collect items body)
      (fun as t => inv t ∧ List.Forall₂ (fun item a => did item a t) items as ∧
        ∀ item a, did item a s → did item a t) thrown s := by
  induction items generalizing s with
  | nil => exact safe_return [] ⟨hs, .nil, fun _ _ h => h⟩
  | cons item items ih =>
    refine safe_andThen (hbody item List.mem_cons_self s hs) ?_
    rintro a t ⟨ht, hdid, hkept⟩
    refine safe_andThen (ih (fun item' hitem' => hbody item' (List.mem_cons_of_mem _ hitem')) ht) ?_
    rintro as t' ⟨ht', hall, hkept'⟩
    exact safe_return (a :: as) ⟨ht', .cons (hkept' item a hdid) hall,
      fun item' a' h => hkept' item' a' (hkept item' a' h)⟩

section EmitsTogether

variable {allowed : ω → Prop} {p : Program σ ω ε α}

/-- The second part is met only with what the first can return. -/
theorem emits_andThen_of {f : α → Program σ ω ε β} (hp : Emits allowed p)
    (hf : ∀ s a, p.result s = .ok a → Emits allowed (f a)) : Emits allowed (p.andThen f) := by
  intro s w hw
  cases hresult : p.result s with
  | error e => exact hp s w (commits_andThen_error hresult ▸ hw)
  | ok a =>
    rw [commits_andThen_ok hresult] at hw
    exact (List.mem_append.mp hw).elim (hp s w) (hf s a hresult _ w)

theorem emits_andThen {f : α → Program σ ω ε β} (hp : Emits allowed p)
    (hf : ∀ a, Emits allowed (f a)) : Emits allowed (p.andThen f) :=
  emits_andThen_of hp fun _ a _ => hf a

theorem emits_handle {f : ε → Program σ ω ε α} (hp : Emits allowed p)
    (hf : ∀ e, Emits allowed (f e)) : Emits allowed (p.handle f) := by
  intro s w hw
  cases hresult : p.result s with
  | ok a => exact hp s w (commits_handle_ok hresult ▸ hw)
  | error e =>
    rw [commits_handle_error hresult] at hw
    exact (List.mem_append.mp hw).elim (hp s w) (hf e _ w)

theorem emits_forEach {γ : Type*} (items : List γ) {body : γ → Program σ ω ε Unit}
    (hbody : ∀ item ∈ items, Emits allowed (body item)) : Emits allowed (forEach items body) := by
  induction items with
  | nil => exact emits_return ()
  | cons item items ih =>
    refine emits_andThen (hbody item List.mem_cons_self) fun _ => ih fun item' hitem' => ?_
    exact hbody item' (List.mem_cons_of_mem _ hitem')

theorem emits_collect {γ : Type*} (items : List γ) {body : γ → Program σ ω ε α}
    (hbody : ∀ item ∈ items, Emits allowed (body item)) : Emits allowed (collect items body) := by
  induction items with
  | nil => exact emits_return []
  | cons item items ih =>
    refine emits_andThen (hbody item List.mem_cons_self) fun _ => emits_andThen (ih ?_) fun _ => ?_
    · exact fun item' hitem' => hbody item' (List.mem_cons_of_mem _ hitem')
    · exact emits_return _

/-- Commits of an allowed kind are safe where the kind alone makes them so. -/
theorem Emits.each {ok : σ → ω → Prop} (h : Emits allowed p)
    (hok : ∀ w, allowed w → ∀ s, ok s w) (s : σ) : Each ok s (p.commits s) :=
  each_of_forall (h s) hok

/-- A program whose commits, by their kind, are safe and keep an invariant. -/
theorem Emits.safe {ok : σ → ω → Prop} (inv : σ → Prop) (h : Emits allowed p)
    (hok : ∀ w, allowed w → ∀ s, inv s → ok s w ∧ inv (apply s w)) {s : σ} (hs : inv s) :
    Safe ok p (fun _ => inv) (fun _ => inv) s := by
  have hall : ∀ ws : List ω, (∀ w ∈ ws, allowed w) → ∀ t : σ, inv t →
      Each ok t ws ∧ inv (settle t ws) := by
    intro ws
    induction ws with
    | nil => exact fun _ _ ht => ⟨trivial, ht⟩
    | cons w ws ih =>
      intro hws t ht
      obtain ⟨hw, ht'⟩ := hok w (hws w List.mem_cons_self) t ht
      obtain ⟨hrest, hend⟩ := ih (fun w' hw' => hws w' (List.mem_cons_of_mem _ hw')) _ ht'
      exact ⟨⟨hw, hrest⟩, hend⟩
  obtain ⟨heach, hend⟩ := hall (p.commits s) (h s) s hs
  exact ⟨heach, fun _ _ => hend, fun _ _ => hend⟩

end EmitsTogether

/-- Both parts of a sequence that returned ran within it. -/
theorem ran_andThen {p : Program σ ω ε α} {f : α → Program σ ω ε β} {b : β} {s : σ}
    (h : (p.andThen f).result s = .ok b) :
    ∃ a, p.result s = .ok a ∧ p.commits s ⊆ (p.andThen f).commits s ∧
      (f a).result (p.after s) = .ok b ∧ (f a).commits (p.after s) ⊆ (p.andThen f).commits s := by
  obtain ⟨a, ha, hb⟩ := andThen_returned h
  rw [commits_andThen_ok ha]
  exact ⟨a, ha, List.subset_append_left _ _, hb, List.subset_append_right _ _⟩

/-- Each item's body ran, for its value, within a collection that returned. -/
theorem collect_ran {γ : Type*} {items : List γ} {body : γ → Program σ ω ε α} {as : List α} {s : σ}
    (h : (collect items body).result s = .ok as) :
    List.Forall₂ (fun item a => Ran (body item) a ((collect items body).commits s)) items as := by
  induction items generalizing as s with
  | nil =>
    obtain rfl : [] = as := Except.ok.inj h
    exact .nil
  | cons item items ih =>
    obtain ⟨a, ha, hfirst, hrest, hsub⟩ := ran_andThen h
    obtain ⟨as', has', hsub', hreturn, -⟩ := ran_andThen hrest
    obtain rfl : a :: as' = as := Except.ok.inj hreturn
    exact .cons ⟨s, ha, hfirst⟩ ((ih has').imp fun _ _ hitem => hitem.mono (List.Subset.trans hsub' hsub))

end Program

end EventQuant
