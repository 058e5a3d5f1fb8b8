import ClassListing.Command
import ClassListing.Proofs.Batch

namespace ClassListing

open Checks

namespace Command

/-- The end of a request: a report on the first stage that fails, or every listing. Of several
classes that cannot be read, the one with the least name counts. -/
inductive Ends (disk : Disk) (request : Request) : Output → Prop
  | badSettings {error : Settings.Error}
      (h : Settings.resolve disk request.config request.switches = .error error) :
      Ends disk request ⟨1, "", (Error.settings error).report⟩
  | badPaths {options : Options} {error : Collection.Error}
      (hsettings : Settings.resolve disk request.config request.switches = .ok options)
      (h : Collection.collect disk request.paths = .error error) :
      Ends disk request ⟨1, "", (Error.collection error).report⟩
  | unknownEngine {options : Options} {sources : Sources}
      (hsettings : Settings.resolve disk request.config request.switches = .ok options)
      (hpaths : Collection.collect disk request.paths = .ok sources)
      (h : request.engine ∉ (Registry.standard options).names) :
      Ends disk request
        ⟨1, "", (Error.engine ⟨request.engine, (Registry.standard options).names⟩).report⟩
  | badClass {options : Options} {sources : Sources} {name : String} {bytes : Bytes} {fault : Fault}
      (hsettings : Settings.resolve disk request.config request.switches = .ok options)
      (hpaths : Collection.collect disk request.paths = .ok sources)
      (hengine : request.engine ∈ (Registry.standard options).names)
      (hclass : sources.get? name = some bytes) (h : ClassFile.read bytes = .error fault)
      (hbefore : ∀ other bytes', sources.get? other = some bytes' →
        utf8Bytes other < utf8Bytes name → Succeeds (ClassFile.read bytes')) :
      Ends disk request
        ⟨1, if request.json then (Failure.json ⟨fault.message⟩).pretty ++ "\n" else "",
          (Error.batch ⟨fault.message⟩).report⟩
  | listed {options : Options} {sources : Sources} {results : Results}
      (hsettings : Settings.resolve disk request.config request.switches = .ok options)
      (hpaths : Collection.collect disk request.paths = .ok sources)
      (hengine : request.engine ∈ (Registry.standard options).names)
      (hnames : results.names = sources.names)
      (htexts : ∀ name text, results.get? name = some text ↔
        ∃ bytes, sources.get? name = some bytes ∧ render options bytes = .ok text) :
      Ends disk request
        ⟨0, if request.json then results.json.pretty ++ "\n" else results.report, ""⟩

variable {disk : Disk} {request : Request} {options : Options} {sources : Sources}

end Command

end ClassListing
