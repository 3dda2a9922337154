import Gabby.Exec
import Gabby.Bytes
import Gabby.Dict
import Gabby.Decimal
import Gabby.Promotion
import Gabby.Double
import Gabby.DoubleExact
import Gabby.Numeral
import Gabby.DoubleText
import Gabby.DoubleReading
import Gabby.DoubleScientific
import Gabby.Stream
import Gabby.Errors
import Gabby.JsonValue
import Gabby.JsonEquality
import Gabby.JsonMeaning
import Gabby.JsonScanner
import Gabby.JsonParser
import Gabby.JsonRelations
import Gabby.JsonGrammar
import Gabby.JsonLexemes
import Gabby.JsonTape
import Gabby.JsonTapeSound
import Gabby.JsonTapeComplete
import Gabby.JsonFraming
import Gabby.JsonText
import Gabby.JsonComparison
import Gabby.JsonWhole
import Gabby.Safetensors
import Gabby.SafetensorsBounds
import Gabby.JsonRendered
import Gabby.JsonStrings
import Gabby.JsonNumbers
import Gabby.JsonElements
import Gabby.JsonRoundTrip
import Gabby.JsonIntegers
import Gabby.JsonResync
import Gabby.JsonPrinted
import Gabby.HttpRequest
import Gabby.HttpLines
import Gabby.HttpGrammar
import Gabby.ServiceRequest
import Gabby.HttpClient
import Gabby.HttpServer
import Gabby.ServiceResponse
import Gabby.Service
import Gabby.HttpReplies
import Gabby.HttpDelivery
import Gabby.ServiceMessages
import Gabby.HttpCalls
import Gabby.HttpOrder
import Gabby.HttpCounts
import Gabby.HttpBody
import Gabby.HttpStatus
import Gabby.ServiceReplies
import Gabby.ServiceFidelity
import Gabby.ServiceStall
import Gabby.Transition
import Gabby.ThreadPool
import Gabby.CommandLine
import Gabby.ThreadPoolOrder
import Gabby.ThreadPoolProgress
import Gabby.ThreadPoolShutdown
import Gabby.HttpLifecycle
import Gabby.HttpStartup
import Gabby.HttpListener
import Gabby.HttpShutdown
import Gabby.HttpStop
import Gabby.HttpStuck
import Gabby.HttpDestruction
import Gabby.HttpSocket
import Gabby.HttpAttempts
import Gabby.ServiceCalls
import Gabby.ServiceLocality
import Gabby.ThreadPoolSettling
import Gabby.HttpProcess
import Gabby.HttpDescriptors
import Gabby.JsonStack
import Gabby.SharedHeap
import Gabby.JsonHeap
import Gabby.JsonSharing
import Gabby.JsonChanges
import Gabby.ServiceHeap
import Gabby.InferenceConfig
import Gabby.HttpWork
import Gabby.HttpSettling
