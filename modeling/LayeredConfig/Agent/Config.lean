import LayeredConfig.Message.Tree

/-!
# The telemetry agent

The message types of the agent's configuration, and the tree of defaults from
which settings are taken that no other source gives.
-/

namespace LayeredConfig.Agent

def propagationFormat : EnumType :=
  { name := "PropagationFormat", first := "B3", rest := ["TRACECONTEXT"] }

def traceReporterType : EnumType :=
  { name := "TraceReporterType", first := "ZIPKIN", rest := ["OTLP"] }

def message : Message where
  label := ⟨"Message", ["Capture toggles for one direction pair."]⟩
  fields :=
    .plain ⟨"request", ["Capture on requests."]⟩ (.leaf (.scalar .bool)) <|
    .plain ⟨"response", ["Capture on responses."]⟩ (.leaf (.scalar .bool)) .nil

def dataCapture : Message where
  label := ⟨"DataCapture", ["Data capture policy per channel."]⟩
  fields :=
    .nested ⟨"http_headers", ["HTTP header capture."]⟩ message.label message.fields <|
    .nested ⟨"http_body", ["HTTP body capture."]⟩ message.label message.fields <|
    .nested ⟨"rpc_metadata", ["RPC metadata capture."]⟩ message.label message.fields <|
    .nested ⟨"rpc_body", ["RPC body capture."]⟩ message.label message.fields <|
    .plain ⟨"body_max_size_bytes", ["Maximum number of body bytes captured per message."]⟩
      (.leaf (.scalar .int32)) <|
    .plain ⟨"allowed_content_types",
        ["Content types whose bodies are captured. Empty captures all."]⟩
      (.list (.scalar .string)) .nil

def reporting : Message where
  label := ⟨"Reporting", ["Span reporting endpoint settings."]⟩
  fields :=
    .plain ⟨"endpoint", ["URL of the span collector."]⟩ (.leaf (.scalar .string)) <|
    .plain ⟨"secure", ["Whether the connection to the collector uses TLS."]⟩
      (.leaf (.scalar .bool)) <|
    .plain ⟨"token", ["Authentication token sent to the collector."]⟩
      (.leaf (.scalar .string)) <|
    .plain ⟨"trace_reporter_type", ["Reporting protocol."]⟩ (.leaf (.enum traceReporterType)) <|
    .plain ⟨"cert_file", ["Path to a PEM certificate used for TLS. Empty uses the system roots."]⟩
      (.leaf (.scalar .string)) .nil

def config : Message where
  label := ⟨"AgentConfig", ["Root configuration of the telemetry agent."]⟩
  fields :=
    .plain ⟨"service_name", ["Identifies the service or process in the trace backend."]⟩
      (.leaf (.scalar .string)) <|
    .nested ⟨"reporting", ["Where and how spans are reported."]⟩
      reporting.label reporting.fields <|
    .nested ⟨"data_capture", ["Which request and response elements are captured."]⟩
      dataCapture.label dataCapture.fields <|
    .plain ⟨"propagation_formats", ["Formats used to propagate trace context across services."]⟩
      (.list (.enum propagationFormat)) <|
    .plain ⟨"enabled", ["Master switch for the agent."]⟩ (.leaf (.scalar .bool)) <|
    .plain ⟨"resource_attributes",
        ["Attributes attached to every reported span.", "Not settable from the environment."]⟩
      (.map .string .string) .nil

abbrev Config : Type := Tree config.fields

def defaultEndpoint : String := "http://localhost:9411/api/v2/spans"

def defaultBodyMaxSizeBytes : Int32 := 131072

def captureBoth : Tree message.fields := (some true, some true, ())

/-- The defaults for span reporting: no token, all else set. -/
def defaultReporting : Tree reporting.fields :=
  (some defaultEndpoint, some false, none, some traceReporterType.zero, some "", ())

/-- The defaults for data capture: everything, up to a size. -/
def defaultDataCapture : Tree dataCapture.fields :=
  (some captureBoth, some captureBoth, some captureBoth, some captureBoth,
    some defaultBodyMaxSizeBytes, [], ())

/-- The defaults.  The service name and the master switch have none. -/
def defaultConfig : Config :=
  (none, some defaultReporting, some defaultDataCapture, [⟨1, by decide⟩], none,
    SortedMap.empty, ())

def stem : String := "HT_"

end LayeredConfig.Agent
