import Gabby.CommandLine
import Gabby.JsonWhole
import Gabby.SafetensorsBounds

/-! Loading a model: the files that `LoadConfig` opens, parses and maps, and the descriptors and
mappings that it leaves behind. -/
namespace Gabby.Inference

open Exec

/-- An exception of the program, or one of `std::filesystem`. -/
inductive Failure
  | exn (e : Exn)
  | filesystemError (errno : ℕ)

/-- What is at a path: nothing, or a file with its content that may refuse to be opened. -/
inductive Entry
  | absent (errno : ℕ)
  | file (content : Bytes) (refused : Option ℕ)

namespace Entry

/-- The content, or the error of the call that opens the file. -/
def opened : Entry → Except ℕ Bytes
  | absent errno => .error errno
  | file _ (some errno) => .error errno
  | file content none => .ok content

def size : Entry → Except ℕ ℕ
  | absent errno => .error errno
  | file content _ => .ok content.length

theorem size_of_opened {e : Entry} {content : Bytes} (h : e.opened = .ok content) :
    e.size = .ok content.length := by
  rcases e with _ | ⟨content',_ | errno⟩
  · cases h
  · cases h
    rfl
  · cases h

end Entry

/-- What the process owns of the system. A descriptor has the number of those that were opened
before it, and a mapping that of the descriptor it was made with. -/
structure Resources where
  opened : ℕ
  descriptors : List ℕ
  mappings : List ℕ

namespace Resources

def close (fd : ℕ) (r : Resources) : Resources := { r with descriptors := r.descriptors.erase fd }

def unmap (m : ℕ) (r : Resources) : Resources := { r with mappings := r.mappings.erase m }

def counting (n : ℕ) (r : Resources) : Resources := { r with opened := n }

structure Fresh (r : Resources) : Prop where
  descriptors : ∀ fd ∈ r.descriptors, fd < r.opened
  mappings : ∀ m ∈ r.mappings, m < r.opened

end Resources

/-! ## The program -/

def finish {α : Type} : Except (Stop Exn) α → Exec Resources Failure α
  | .ok a => pure a
  | .error (.throw e) => Exec.throw (.exn e)
  | .error .assertion => Exec.stop .assertion
  | .error .undefined => Exec.stop .undefined
  | .error .outOfFuel => Exec.stop .outOfFuel

def fileSize (e : Entry) : Exec Resources Failure ℕ :=
  match e.size with
  | .error errno => Exec.throw (.filesystemError errno)
  | .ok size => pure size

/-- `fopen` and `open` give a new descriptor, or the error is thrown. -/
def openFile (e : Entry) : Exec Resources Failure (ℕ × Bytes) :=
  match e.opened with
  | .error errno => Exec.throw (.exn (.systemError errno))
  | .ok content => Exec.step fun r => (.ok (r.opened,content),
    { r with opened := r.opened + 1, descriptors := r.descriptors ++ [r.opened] })

/-- `ParseFile`, which owns the stream as long as it runs. -/
def parseFile (e : Entry) : Exec Resources Failure Json.Value :=
  Exec.owning (openFile e) (fun f => Resources.close f.1) fun f => do
    let _ ← fileSize e
    finish (Json.parseFile f.2)

variable (env : Machine)

/-- `Mmap`. It takes the number out of the owner of the descriptor, and nobody closes it. -/
def mapFile (fd : ℕ) : Exec Resources Failure Unit := Exec.modify fun r =>
  if env.maps then { r with mappings := r.mappings ++ [fd] } else r

/-- `Safetensors::LoadFile`; the mapping is part of what it returns. -/
def loadTensors (e : Entry) : Exec Resources Failure Safetensors := do
  let _ ← fileSize e
  let f ← openFile e
  mapFile env f.1
  Exec.guarded (Resources.unmap f.1) (finish ((loadFile env f.2).run .init).1)

structure InferenceConfig where
  config : Json.Value
  genConfig : Json.Value
  specialTokensMap : Json.Value
  tokConfig : Json.Value
  tok : Json.Value
  tensors : Safetensors

structure ModelDir where
  files : Bytes → Entry
  dir : Bytes

def ModelDir.entry (d : ModelDir) (name : Bytes) : Entry := d.files (Main.appendPath d.dir name)

def loadConfig (d : ModelDir) : Exec Resources Failure InferenceConfig := do
  let config ← parseFile (d.entry (ascii "config.json"))
  let genConfig ← parseFile (d.entry (ascii "generation_config.json"))
  let specialTokensMap ← parseFile (d.entry (ascii "special_tokens_map.json"))
  let tokConfig ← parseFile (d.entry (ascii "tokenizer_config.json"))
  let tok ← parseFile (d.entry (ascii "tokenizer.json"))
  let tensors ← loadTensors env (d.entry (ascii "model.safetensors"))
  pure ⟨config,genConfig,specialTokensMap,tokConfig,tok,tensors⟩

/-! ## What it leaves -/

/-- The file can be opened, and the bytes that `Parse` takes account of denote the value. -/
def Entry.Holds (e : Entry) (v : Json.Value) : Prop :=
  ∃ content, e.opened = .ok content ∧ Json.Denotes (Json.accounted content) v

theorem Entry.Holds.unique {e : Entry} {v w : Json.Value} (hv : e.Holds v) (hw : e.Holds w) :
    v = w := by
  obtain ⟨content,ho,hv⟩ := hv
  obtain ⟨content',ho',hw⟩ := hw
  cases ho.symm.trans ho'
  exact hv.unique hw

def jsonFiles : List Bytes := [ascii "config.json",ascii "generation_config.json",
  ascii "special_tokens_map.json",ascii "tokenizer_config.json",ascii "tokenizer.json"]

structure Loads (d : ModelDir) (c : InferenceConfig) : Prop where
  config : (d.entry (ascii "config.json")).Holds c.config
  genConfig : (d.entry (ascii "generation_config.json")).Holds c.genConfig
  specialTokensMap : (d.entry (ascii "special_tokens_map.json")).Holds c.specialTokensMap
  tokConfig : (d.entry (ascii "tokenizer_config.json")).Holds c.tokConfig
  tok : (d.entry (ascii "tokenizer.json")).Holds c.tok
  tensors : ∃ content, (d.entry (ascii "model.safetensors")).opened = .ok content ∧
    ((loadFile env content).run .init).1 = .ok c.tensors

def Reaches (d : ModelDir) : Prop :=
  (∀ name ∈ jsonFiles, ∃ v, (d.entry name).Holds v) ∧
    ∃ content, (d.entry (ascii "model.safetensors")).opened = .ok content

/-- What `LoadConfig` returns, and what it leaves behind: the descriptor of the tensors, whatever
becomes of them, and their mapping when it returns. -/
structure Leaves (d : ModelDir) (r : Resources)
    (s : Except (Stop Failure) InferenceConfig × Resources) : Prop where
  returns : ∀ c, s.1 = .ok c ↔ Loads env d c
  leaked : Reaches d → s.2.descriptors = r.descriptors ++ [r.opened + 5]
  closed : ¬Reaches d → s.2.descriptors = r.descriptors
  mapped : ∀ c, s.1 = .ok c → s.2.mappings = r.mappings ++ [r.opened + 5]
  unmapped : ∀ x, s.1 = .error (.throw x) → s.2.mappings = r.mappings

variable {env} {r : Resources} {n : ℕ} {e : Entry} {d : ModelDir}

theorem run_openFile {content : Bytes} (h : e.opened = .ok content) :
    (openFile e).run (r.counting n) = (.ok (n,content),
      { r with opened := n + 1, descriptors := r.descriptors ++ [n] }) := by
  simp only [openFile,h]
  rfl

theorem close_snoc (hr : r.Fresh) (hn : r.opened ≤ n) (m : ℕ) :
    Resources.close n { r with opened := m, descriptors := r.descriptors ++ [n] } =
      r.counting m := by
  have hnew : n ∉ r.descriptors := fun h => absurd (hr.descriptors n h) (Nat.not_lt.mpr hn)
  rw [Resources.close,List.erase_append_right _ hnew]
  simp [Resources.counting]

theorem parseFile_eq_ok {content : Bytes} {v : Json.Value} (ho : e.opened = .ok content) :
    Json.parseFile content = .ok v ↔ e.Holds v := by
  rw [Json.parseFile,Json.parseOutcome_eq_ok]
  constructor
  · exact fun hv => ⟨content,ho,hv⟩
  · rintro ⟨content',ho',hv⟩
    cases ho.symm.trans ho'
    exact hv

theorem parseFile_raises {content : Bytes} {x : Stop Exn} (h : Json.parseFile content = .error x) :
    ∃ y, x = .throw y := parseString_raises (by rw [Json.parseString]; exact h)

/-- A stream that is used for a call which returns or throws is closed after it. -/
theorem run_owning_openFile (hr : r.Fresh) (hn : r.opened ≤ n) {content : Bytes}
    (ho : e.opened = .ok content) {α : Type} (call : Bytes → Except (Stop Exn) α)
    (hraises : ∀ x, call content = .error x → ∃ y, x = .throw y) :
    (Exec.owning (openFile e) (fun f => Resources.close f.1) fun f => do
      let _ ← fileSize e
      finish (call f.2)).run (r.counting n) =
    match call content with
      | .ok a => (.ok a,r.counting (n+1))
      | .error (.throw x) => (.error (.throw (.exn x)),r.counting (n+1))
      | .error _ => (.error .undefined,r) := by
  rw [run_owning (run_openFile ho),fileSize,Entry.size_of_opened ho]
  dsimp only
  rw [run_bind_ok (run_pure _ _)]
  rcases hc : call content with x | a
  · obtain ⟨y,rfl⟩ := hraises x hc
    simp only [finish,run_throw,close_snoc hr hn]
  · simp only [finish,run_pure,close_snoc hr hn]

theorem run_parseFile (hr : r.Fresh) (hn : r.opened ≤ n) (e : Entry) :
    (∃ v, e.Holds v ∧ (parseFile e).run (r.counting n) = (.ok v,r.counting (n+1))) ∨
    (∀ v, ¬e.Holds v) ∧
      ∃ x m, (parseFile e).run (r.counting n) = (.error (.throw x),r.counting m) := by
  rcases ho : e.opened with errno | content
  · refine .inr ⟨fun v hv => ?_,.exn (.systemError errno),n,?_⟩
    · obtain ⟨content,hc,-⟩ := hv
      cases ho.symm.trans hc
    · have hopen : (openFile e).run (r.counting n) =
          (.error (.throw (.exn (.systemError errno))),r.counting n) := by
        simp only [openFile,ho]
        rfl
      exact run_bind_error hopen
  · have hparse := fun v => parseFile_eq_ok (v:=v) ho
    have hraises : ∀ x, Json.parseFile content = .error x → ∃ y, x = .throw y :=
      fun _ => parseFile_raises
    have hrun := run_owning_openFile hr hn ho Json.parseFile hraises
    rw [← parseFile] at hrun
    rw [hrun]
    generalize Json.parseFile content = o at hparse hraises
    rcases o with x | v
    · obtain ⟨y,rfl⟩ := hraises x rfl
      exact .inr ⟨fun v hv => (nomatch (hparse v).mpr hv),_,_,rfl⟩
    · exact .inl ⟨v,(hparse v).mp rfl,rfl⟩

/-- The descriptor of the tensors stays open, and an exception takes the mapping back. -/
theorem run_loadTensors (hr : r.Fresh) (hn : r.opened ≤ n) {content : Bytes}
    (ho : e.opened = .ok content) :
    ((loadTensors env e).run (r.counting n)).2.descriptors = r.descriptors ++ [n] ∧
    (∀ t, ((loadTensors env e).run (r.counting n)).1 = .ok t ↔
      ((loadFile env content).run .init).1 = .ok t) ∧
    (∀ t, ((loadTensors env e).run (r.counting n)).1 = .ok t →
      ((loadTensors env e).run (r.counting n)).2.mappings = r.mappings ++ [n]) ∧
    ∀ x, ((loadTensors env e).run (r.counting n)).1 = .error (.throw x) →
      ((loadTensors env e).run (r.counting n)).2.mappings = r.mappings := by
  have hnew : n ∉ r.mappings := fun h => absurd (hr.mappings n h) (Nat.not_lt.mpr hn)
  have hmaps : ∀ t, ((loadFile env content).run .init).1 = .ok t → env.maps = true :=
    fun t ht => (loadFile_eq_ok.mp ht).1.1
  rw [loadTensors,fileSize,Entry.size_of_opened ho]
  dsimp only
  rw [run_bind_ok (run_pure _ _),run_bind_ok (run_openFile ho),mapFile,
    run_bind_ok (run_modify _ _),run_guarded]
  generalize ((loadFile env content).run .init).1 = o at hmaps
  rcases o with x | t
  · refine ⟨?_,fun t => ?_,fun t ht => ?_,fun y hy => ?_⟩
    · cases hm : env.maps <;> cases x <;> rfl
    · cases hm : env.maps <;> cases x <;> exact iff_of_false nofun nofun
    · cases hm : env.maps <;> cases x <;> rw [hm] at ht <;> cases ht
    · cases x with
      | throw x =>
        cases hm : env.maps with
        | false => exact List.erase_of_not_mem hnew
        | true =>
          change (r.mappings ++ [n]).erase n = _
          rw [List.erase_append_right _ hnew]
          simp
      | _ => cases hm : env.maps <;> rw [hm] at hy <;> cases hy
  · rw [hmaps t rfl]
    exact ⟨rfl,fun t => by simp [finish],fun _ _ => rfl,nofun⟩

theorem run_loadTensors_of_refused {errno : ℕ} (ho : e.opened = .error errno) :
    ∃ x, (loadTensors env e).run (r.counting n) = (.error (.throw x),r.counting n) := by
  rcases e with _ | ⟨content,_ | errno'⟩
  · exact ⟨_,rfl⟩
  · cases ho
  · exact ⟨_,rfl⟩

/-- Where a file does not hold what is parsed, the descriptors are as before. -/
theorem leaves_of_thrown {s : Except (Stop Failure) InferenceConfig × Resources} {x : Failure}
    {m : ℕ} (hs : s = (.error (.throw x),r.counting m)) (hn : ¬Reaches d)
    (hl : ∀ c, ¬Loads env d c) : Leaves env d r s := by
  subst hs
  exact ⟨fun c => iff_of_false nofun (hl c),fun h => absurd h hn,fun _ => rfl,nofun,fun _ _ => rfl⟩

theorem Loads.reaches {c : InferenceConfig} (h : Loads env d c) : Reaches d := by
  refine ⟨?_,h.tensors.imp fun _ ht => ht.1⟩
  simp only [jsonFiles,List.forall_mem_cons,List.not_mem_nil,false_imp_iff,implies_true,and_true]
  exact ⟨⟨_,h.config⟩,⟨_,h.genConfig⟩,⟨_,h.specialTokensMap⟩,⟨_,h.tokConfig⟩,⟨_,h.tok⟩⟩

theorem leaves_of_parseFile (hr : r.Fresh) (hn : r.opened ≤ n) {name : Bytes}
    (hname : name ∈ jsonFiles) {k : Json.Value → Exec Resources Failure InferenceConfig}
    (hk : ∀ v, (d.entry name).Holds v → Leaves env d r ((k v).run (r.counting (n+1)))) :
    Leaves env d r ((parseFile (d.entry name) >>= k).run (r.counting n)) := by
  rcases run_parseFile hr hn (d.entry name) with ⟨v,hv,hrun⟩ | ⟨hmissing,x,m,hrun⟩
  · rw [run_bind_ok hrun]
    exact hk v hv
  · have hn : ¬Reaches d := fun h => (h.1 name hname).elim hmissing
    exact leaves_of_thrown (run_bind_error hrun) hn fun c hc => hn hc.reaches

section Parsed

variable {v₁ v₂ v₃ v₄ v₅ : Json.Value} {content : Bytes}
  (h₁ : (d.entry (ascii "config.json")).Holds v₁)
  (h₂ : (d.entry (ascii "generation_config.json")).Holds v₂)
  (h₃ : (d.entry (ascii "special_tokens_map.json")).Holds v₃)
  (h₄ : (d.entry (ascii "tokenizer_config.json")).Holds v₄)
  (h₅ : (d.entry (ascii "tokenizer.json")).Holds v₅)
include h₁ h₂ h₃ h₄ h₅

theorem reaches_of_opened (ho : (d.entry (ascii "model.safetensors")).opened = .ok content) :
    Reaches d := by
  refine ⟨?_,content,ho⟩
  simp only [jsonFiles,List.forall_mem_cons,List.not_mem_nil,false_imp_iff,implies_true,and_true]
  exact ⟨⟨_,h₁⟩,⟨_,h₂⟩,⟨_,h₃⟩,⟨_,h₄⟩,⟨_,h₅⟩⟩

theorem loads_iff (ho : (d.entry (ascii "model.safetensors")).opened = .ok content)
    (c : InferenceConfig) : Loads env d c ↔
      ∃ t, ((loadFile env content).run .init).1 = .ok t ∧ c = ⟨v₁,v₂,v₃,v₄,v₅,t⟩ := by
  constructor
  · rintro ⟨hc₁,hc₂,hc₃,hc₄,hc₅,content',ho',ht⟩
    cases ho.symm.trans ho'
    obtain ⟨c₁,c₂,c₃,c₄,c₅,t⟩ := c
    cases h₁.unique hc₁
    cases h₂.unique hc₂
    cases h₃.unique hc₃
    cases h₄.unique hc₄
    cases h₅.unique hc₅
    exact ⟨t,ht,rfl⟩
  · rintro ⟨t,ht,rfl⟩
    exact ⟨h₁,h₂,h₃,h₄,h₅,content,ho,ht⟩

theorem leaves_tensors (hr : r.Fresh) :
    Leaves env d r ((loadTensors env (d.entry (ascii "model.safetensors")) >>= fun tensors =>
      pure ⟨v₁,v₂,v₃,v₄,v₅,tensors⟩).run (r.counting (r.opened+5))) := by
  rcases ho : (d.entry (ascii "model.safetensors")).opened with errno | content
  · have hx : ∃ x, (loadTensors env (d.entry (ascii "model.safetensors"))).run
        (r.counting (r.opened+5)) = (.error (.throw x),r.counting (r.opened+5)) :=
      run_loadTensors_of_refused ho
    obtain ⟨x,hx⟩ := hx
    have hn : ¬Reaches d := by
      rintro ⟨-,content,hc⟩
      cases ho.symm.trans hc
    exact leaves_of_thrown (run_bind_error hx) hn fun c hc => hn hc.reaches
  · have hn : r.opened ≤ r.opened + 5 := Nat.le_add_right _ 5
    obtain ⟨hdesc,hok,hmap,hun⟩ := run_loadTensors hr hn ho
    have hreach := reaches_of_opened h₁ h₂ h₃ h₄ h₅ ho
    have hloads : ∀ c, Loads env d c ↔ ∃ t, ((loadFile env content).run .init).1 = .ok t ∧
        c = ⟨v₁,v₂,v₃,v₄,v₅,t⟩ := loads_iff h₁ h₂ h₃ h₄ h₅ ho
    generalize hs : (loadTensors env (d.entry (ascii "model.safetensors"))).run
      (r.counting (r.opened+5)) = s at hdesc hok hmap hun
    obtain ⟨x | t,r'⟩ := s
    · rw [run_bind_error hs]
      refine ⟨fun c => iff_of_false nofun fun hc => ?_,fun _ => hdesc,
        fun h => absurd hreach h,nofun,fun y hy => ?_⟩
      · obtain ⟨t,ht,-⟩ := (hloads c).mp hc
        cases (hok t).mpr ht
      · cases hy
        exact hun y rfl
    · rw [run_bind_ok hs,run_pure]
      refine ⟨fun c => ?_,fun _ => hdesc,fun h => absurd hreach h,fun _ _ => hmap t rfl,nofun⟩
      constructor
      · intro hc
        cases hc
        exact (hloads _).mpr ⟨t,(hok t).mp rfl,rfl⟩
      · intro hc
        obtain ⟨t',ht',rfl⟩ := (hloads c).mp hc
        cases (hok t').mpr ht'
        rfl

end Parsed

/-- Whatever a directory holds, `LoadConfig` returns exactly when the five files denote values
and the tensors can be loaded. It closes each file that it parses and, when it throws, has no
mapping left; but from the moment that it has opened the tensors, their descriptor stays open. -/
theorem loadConfig_leaves (env : Machine) (d : ModelDir) (hr : r.Fresh) :
    Leaves env d r ((loadConfig env d).run r) := by
  refine leaves_of_parseFile hr le_rfl (by simp [jsonFiles]) fun v₁ hv₁ => ?_
  refine leaves_of_parseFile hr (Nat.le_add_right _ 1) (by simp [jsonFiles]) fun v₂ hv₂ => ?_
  refine leaves_of_parseFile hr (Nat.le_add_right _ 2) (by simp [jsonFiles]) fun v₃ hv₃ => ?_
  refine leaves_of_parseFile hr (Nat.le_add_right _ 3) (by simp [jsonFiles]) fun v₄ hv₄ => ?_
  refine leaves_of_parseFile hr (Nat.le_add_right _ 4) (by simp [jsonFiles]) fun v₅ hv₅ => ?_
  exact leaves_tensors hv₁ hv₂ hv₃ hv₄ hv₅ hr

/-- Five empty objects and the header of no tensors. -/
def modelDir : ModelDir := ⟨fun name =>
  .file (if name = ascii "model.safetensors" then emptyHeader else ascii "\x7b\x7d") none,[]⟩

theorem reaches_modelDir : Reaches modelDir := by
  refine ⟨fun name hname => ⟨.object [],ascii "\x7b\x7d",?_,?_⟩,emptyHeader,rfl⟩
  · have hne : ∀ name ∈ jsonFiles, Main.appendPath [] name ≠ ascii "model.safetensors" := by
      decide +kernel
    simp only [ModelDir.entry,modelDir,if_neg (hne name hname),Entry.opened]
  · rw [Json.accounted_of_lt (by decide)]
    exact ⟨_,.first .lbrace (.lexeme .rbrace),.object [] (by simp)⟩

theorem loadConfig_leaves_modelDir : Reaches modelDir ∧ Leaves x86 modelDir ⟨3,[0,1,2],[]⟩
    ((loadConfig x86 modelDir).run ⟨3,[0,1,2],[]⟩) :=
  ⟨reaches_modelDir,loadConfig_leaves x86 modelDir ⟨by decide,nofun⟩⟩

end Gabby.Inference
